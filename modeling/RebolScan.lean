import RebolScan.Calendar.Date
import RebolScan.Calendar.Time
import RebolScan.Command
import RebolScan.Header
import RebolScan.Literal.Clock
import RebolScan.Literal.Number
import RebolScan.Literal.Radix
import RebolScan.Literal.Text
import RebolScan.Main
import RebolScan.Number.Binary64
import RebolScan.Number.Shortest
import RebolScan.Number.Text
import RebolScan.Scan.Construct
import RebolScan.Scan.Element
import RebolScan.Scan.Options
import RebolScan.Scan.Scanner
import RebolScan.Scan.Transcode
import RebolScan.Symbol
import RebolScan.Text.Alphabet
import RebolScan.Text.Ascii
import RebolScan.Text.Bytes
import RebolScan.Text.Escaped
import RebolScan.Text.Lines
import RebolScan.Text.Utf8
import RebolScan.Text.Visible
import RebolScan.Token.Caret
import RebolScan.Token.Cursor
import RebolScan.Token.Kind
import RebolScan.Token.Lexeme
import RebolScan.Token.Marks
import RebolScan.Token.Quoted
import RebolScan.Token.Tag
import RebolScan.Token.Tokenizer
import RebolScan.Value.Basic
import RebolScan.Value.Fault
import RebolScan.Value.Render
import RebolScan.Proofs.Scan.Element
import RebolScan.Proofs.Scan.Forward
import RebolScan.Proofs.Scan.FirstFault
import RebolScan.Proofs.Scan.Progress
import RebolScan.Proofs.Scan.Resumed
import RebolScan.Proofs.Scan.Incremental
import RebolScan.Proofs.Scan.Round
import RebolScan.Proofs.Value.Tiled
import RebolScan.Proofs.Scan.Tiling
import RebolScan.Proofs.Scan.Sighting
import RebolScan.Proofs.Scan.Closers
import RebolScan.Proofs.Text.LineBreaks
import RebolScan.Proofs.Token.OneLine
import RebolScan.Proofs.Token.Stream
import RebolScan.Proofs.Scan.Triple
import RebolScan.Proofs.Scan.Crossing
import RebolScan.Proofs.Scan.Located
import RebolScan.Proofs.Scan.Balance
import RebolScan.Proofs.Symbol
import RebolScan.Proofs.Text.Utf8
import RebolScan.Proofs.Literal.Digits
import RebolScan.Proofs.Literal.Written
import RebolScan.Proofs.Token.Solid
import RebolScan.Proofs.Token.Written
import RebolScan.Proofs.Value.Spellable
import RebolScan.Proofs.Scan.Written
import RebolScan.Proofs.Scan.Run
import RebolScan.Proofs.Scan.Construct
import RebolScan.Proofs.Scan.ReadBack
import RebolScan.Proofs.Scan.ReadPath
import RebolScan.Proofs.Scan.RoundTrip
import RebolScan.Proofs.Value.Nesting
import RebolScan.Proofs.Scan.Counted
import RebolScan.Proofs.Scan.Nesting
import RebolScan.Proofs.Text.Brackets
import RebolScan.Proofs.Scan.Brackets
import RebolScan.Proofs.Token.QuotedText
import RebolScan.Proofs.Literal.QuotedText
import RebolScan.Proofs.Scan.QuotedText
import RebolScan.Proofs.Token.Enclosed
import RebolScan.Proofs.Token.Layout
import RebolScan.Proofs.Scan.Kept
import RebolScan.Proofs.Scan.Skipping
import RebolScan.Proofs.Value.Gaps
import RebolScan.Proofs.Scan.Abreast
import RebolScan.Proofs.Scan.Strict
import RebolScan.Proofs.Scan.Respaced
import RebolScan.Proofs.Scan.Layout
import RebolScan.Proofs.Literal.Radix
import RebolScan.Proofs.Scan.Single
import RebolScan.Proofs.Value.Pieces
import RebolScan.Proofs.Token.Delimiters
import RebolScan.Proofs.Scan.Whole
import RebolScan.Proofs.Scan.Streamed
import RebolScan.Proofs.Value.Found
import RebolScan.Proofs.Symbol.Interned
import RebolScan.Proofs.Scan.Reading
import RebolScan.Proofs.Scan.Interned
import RebolScan.Proofs.Scan.Histories
import RebolScan.Proofs.Scan.Embedded
import RebolScan.Proofs.Token.Names
import RebolScan.Proofs.Scan.Names
import RebolScan.Proofs.Value.Paths
import RebolScan.Proofs.Scan.Paths
import RebolScan.Proofs.Scan.Numeral
import RebolScan.Proofs.Literal.Dates
import RebolScan.Proofs.Scan.Dates
import RebolScan.Proofs.Scan.PlainNames
import RebolScan.Proofs.Token.Pairs
import RebolScan.Proofs.Scan.Pairs
import RebolScan.Proofs.Scan.Delimiters
import RebolScan.Proofs.Scan.Within
import RebolScan.Proofs.Scan.Termination
import RebolScan.Proofs.Token.Unescaped
import RebolScan.Proofs.Token.Cut
import RebolScan.Proofs.Token.LineCount
import RebolScan.Proofs.Scan.LineCount
import RebolScan.Proofs.Value.Flags
import RebolScan.Proofs.Scan.Flags
import RebolScan.Proofs.Value.Spelling
import RebolScan.Proofs.Scan.Spelling
import RebolScan.Proofs.Scan.SingleNames
import RebolScan.Proofs.Header
import RebolScan.Proofs.Header.Preamble
import RebolScan.Proofs.Literal.Magnitude
import RebolScan.Proofs.Literal.Times
import RebolScan.Proofs.Literal.ProperDates
import RebolScan.Proofs.Scan.Integers
import RebolScan.Proofs.Literal.Sextets
import RebolScan.Proofs.Token.Pieces
import RebolScan.Proofs.Token.Braces
import RebolScan.Proofs.Token.QuotedLines
import RebolScan.Proofs.Literal.Ends
import RebolScan.Proofs.Token.Tag
import RebolScan.Proofs.Literal.Addresses
import RebolScan.Proofs.Scan.Objects
import RebolScan.Proofs.Scan.SingleValue
import RebolScan.Proofs.Literal.Tuples
import RebolScan.Proofs.Text.Sequences
import RebolScan.Proofs.Token.Runs
import RebolScan.Proofs.Token.Rescan
