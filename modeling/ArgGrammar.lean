import ArgGrammar.Text.Blank
import ArgGrammar.Text.Bytes
import ArgGrammar.Text.Lowercase
import ArgGrammar.Text.Lines
import ArgGrammar.Text.Escape
import ArgGrammar.Number.Numeral
import ArgGrammar.Number.Decimal
import ArgGrammar.Number.Shortest
import ArgGrammar.OrderedMap
import ArgGrammar.Tokenizer
import ArgGrammar.Context
import ArgGrammar.Cursor
import ArgGrammar.Element.Leaf
import ArgGrammar.Element.Literal
import ArgGrammar.Element.Combine
import ArgGrammar.Parser
import ArgGrammar.Toml.Reader
import ArgGrammar.Shell
import ArgGrammar.Main
import ArgGrammar.Proofs.Context
import ArgGrammar.Proofs.Cursor
import ArgGrammar.Proofs.Grammar
import ArgGrammar.Proofs.Alike
import ArgGrammar.Proofs.Uniform
import ArgGrammar.Proofs.Layout
import ArgGrammar.Proofs.Alternatives
import ArgGrammar.Proofs.Placement
import ArgGrammar.Proofs.Candidate
import ArgGrammar.Proofs.Quoting
import ArgGrammar.Proofs.Completion
import ArgGrammar.Proofs.Boundary
import ArgGrammar.Proofs.Spaced
import ArgGrammar.Proofs.Segments
import ArgGrammar.Proofs.Policies
import ArgGrammar.Proofs.Replacement
import ArgGrammar.Proofs.CursorRuns
import ArgGrammar.Proofs.Forward
import ArgGrammar.Proofs.Places
import ArgGrammar.Proofs.Progress
import ArgGrammar.Proofs.LastToken
import ArgGrammar.Proofs.Resumes
import ArgGrammar.Proofs.Spans
import ArgGrammar.Proofs.Modes
import ArgGrammar.Proofs.Stock
import ArgGrammar.Proofs.Inspection
import ArgGrammar.Proofs.Commitment
import ArgGrammar.Proofs.Frame
import ArgGrammar.Proofs.Blind
import ArgGrammar.Proofs.Rounds
import ArgGrammar.Proofs.Scanners
import ArgGrammar.Proofs.Anchoring
import ArgGrammar.Proofs.Agreement
import ArgGrammar.Proofs.InlineValues
import ArgGrammar.Proofs.Grouping
import ArgGrammar.Proofs.Skipping
import ArgGrammar.Proofs.Recording
import ArgGrammar.Proofs.Readings
import ArgGrammar.Proofs.StoreCommands
import ArgGrammar.Proofs.PlainText
import ArgGrammar.Proofs.Highlighting
import ArgGrammar.Proofs.Suggestions
import ArgGrammar.Proofs.TomlStrings
import ArgGrammar.Proofs.TomlValues
import ArgGrammar.Proofs.TomlDocuments
import ArgGrammar.Proofs.Files
import ArgGrammar.Proofs.SavedSettings
import ArgGrammar.Proofs.Rollback
import ArgGrammar.Proofs.Annotation
import ArgGrammar.Proofs.Numerals
