import SignatureLedger.Analysis
import SignatureLedger.ByteMap
import SignatureLedger.Command
import SignatureLedger.Command.Arguments
import SignatureLedger.Command.Report
import SignatureLedger.Command.Run
import SignatureLedger.Config.Format
import SignatureLedger.Config.Layers
import SignatureLedger.Config.Settings
import SignatureLedger.Config.Value
import SignatureLedger.Declaration
import SignatureLedger.Declaration.ClassBody
import SignatureLedger.Declaration.Extent
import SignatureLedger.Declaration.Item
import SignatureLedger.Declaration.Item.Forward
import SignatureLedger.Declaration.Module
import SignatureLedger.Declaration.Parser
import SignatureLedger.Declaration.TypePhrase
import SignatureLedger.Diagnostic
import SignatureLedger.Diagnostic.Message
import SignatureLedger.Diagnostic.Render
import SignatureLedger.Dialect
import SignatureLedger.Drift
import SignatureLedger.Files
import SignatureLedger.Files.Path
import SignatureLedger.Files.Replace
import SignatureLedger.Files.Tree
import SignatureLedger.Ledger
import SignatureLedger.Ledger.Format
import SignatureLedger.Main
import SignatureLedger.Proofs.Command.ExitCode
import SignatureLedger.Proofs.Command.JsonReports
import SignatureLedger.Proofs.Command.Limits
import SignatureLedger.Proofs.Command.Occurrences
import SignatureLedger.Proofs.Command.Placement
import SignatureLedger.Proofs.Command.Rearranged
import SignatureLedger.Proofs.Config.Integers
import SignatureLedger.Proofs.Config.QuotedValues
import SignatureLedger.Proofs.Config.ReadBack
import SignatureLedger.Proofs.Config.Rejected
import SignatureLedger.Proofs.Config.Settled
import SignatureLedger.Proofs.Config.Written
import SignatureLedger.Proofs.Declaration.Backtracking
import SignatureLedger.Proofs.Declaration.Bodies
import SignatureLedger.Proofs.Declaration.Brackets
import SignatureLedger.Proofs.Declaration.Budget
import SignatureLedger.Proofs.Declaration.Completeness
import SignatureLedger.Proofs.Declaration.Course
import SignatureLedger.Proofs.Declaration.Course.Items
import SignatureLedger.Proofs.Declaration.Course.Members
import SignatureLedger.Proofs.Declaration.Course.Stretch
import SignatureLedger.Proofs.Declaration.Course.Types
import SignatureLedger.Proofs.Declaration.Course.Unclosed
import SignatureLedger.Proofs.Declaration.Descent
import SignatureLedger.Proofs.Declaration.Dropped
import SignatureLedger.Proofs.Declaration.Exports
import SignatureLedger.Proofs.Declaration.Exports.Accounts
import SignatureLedger.Proofs.Declaration.Exports.Excuse
import SignatureLedger.Proofs.Declaration.Exports.Items
import SignatureLedger.Proofs.Declaration.Exports.Members
import SignatureLedger.Proofs.Declaration.Exports.Outside
import SignatureLedger.Proofs.Declaration.Exports.Stretch
import SignatureLedger.Proofs.Declaration.Exports.Types
import SignatureLedger.Proofs.Declaration.Forest
import SignatureLedger.Proofs.Declaration.Grammar
import SignatureLedger.Proofs.Declaration.ItemRules
import SignatureLedger.Proofs.Declaration.Kinds
import SignatureLedger.Proofs.Declaration.Loop
import SignatureLedger.Proofs.Declaration.MemberRules
import SignatureLedger.Proofs.Declaration.Moves
import SignatureLedger.Proofs.Declaration.Names
import SignatureLedger.Proofs.Declaration.Nested
import SignatureLedger.Proofs.Declaration.Phrases
import SignatureLedger.Proofs.Declaration.Quiet
import SignatureLedger.Proofs.Declaration.Reaches
import SignatureLedger.Proofs.Declaration.Sites
import SignatureLedger.Proofs.Declaration.Skimmed
import SignatureLedger.Proofs.Declaration.Spans
import SignatureLedger.Proofs.Declaration.Standing
import SignatureLedger.Proofs.Declaration.Starts
import SignatureLedger.Proofs.Declaration.Stretch
import SignatureLedger.Proofs.Declaration.StretchRounds
import SignatureLedger.Proofs.Declaration.StretchRules
import SignatureLedger.Proofs.Declaration.Twin
import SignatureLedger.Proofs.Declaration.Twin.Declarations
import SignatureLedger.Proofs.Declaration.Twin.Hole
import SignatureLedger.Proofs.Declaration.Twin.Items
import SignatureLedger.Proofs.Declaration.Twin.Members
import SignatureLedger.Proofs.Declaration.Twin.Move
import SignatureLedger.Proofs.Declaration.Twin.Stretch
import SignatureLedger.Proofs.Declaration.Twin.Types
import SignatureLedger.Proofs.Declaration.TypeGrammar
import SignatureLedger.Proofs.Declaration.TypeParts
import SignatureLedger.Proofs.Declaration.TypeRules
import SignatureLedger.Proofs.Declaration.TypesTaken
import SignatureLedger.Proofs.Declaration.WellNested
import SignatureLedger.Proofs.Digest.Incremental
import SignatureLedger.Proofs.Digest.Standard
import SignatureLedger.Proofs.Ledger.Accepted
import SignatureLedger.Proofs.Ledger.Comparison
import SignatureLedger.Proofs.Ledger.Emitted
import SignatureLedger.Proofs.Ledger.Isolation
import SignatureLedger.Proofs.Ledger.Lines
import SignatureLedger.Proofs.Ledger.Lookup
import SignatureLedger.Proofs.Ledger.Recording
import SignatureLedger.Proofs.Ledger.Reread
import SignatureLedger.Proofs.Ledger.RoundTrip
import SignatureLedger.Proofs.Recursion
import SignatureLedger.Proofs.Signature.Akin
import SignatureLedger.Proofs.Signature.Alike
import SignatureLedger.Proofs.Signature.BodyEdit
import SignatureLedger.Proofs.Signature.Collapse
import SignatureLedger.Proofs.Signature.Comments
import SignatureLedger.Proofs.Signature.Duplicates
import SignatureLedger.Proofs.Signature.Exported
import SignatureLedger.Proofs.Signature.Formatting
import SignatureLedger.Proofs.Signature.Idempotence
import SignatureLedger.Proofs.Signature.Layout
import SignatureLedger.Proofs.Signature.Literals
import SignatureLedger.Proofs.Signature.Naming
import SignatureLedger.Proofs.Signature.Offers
import SignatureLedger.Proofs.Signature.Placed
import SignatureLedger.Proofs.Signature.Reflowed
import SignatureLedger.Proofs.Signature.Reformatted
import SignatureLedger.Proofs.Signature.Refused
import SignatureLedger.Proofs.Signature.Remnants
import SignatureLedger.Proofs.Signature.Respaced
import SignatureLedger.Proofs.Signature.Rounds
import SignatureLedger.Proofs.Signature.Serialized
import SignatureLedger.Proofs.Signature.Stripping
import SignatureLedger.Proofs.Signature.TwoSources
import SignatureLedger.Proofs.Text.Blocks
import SignatureLedger.Proofs.Text.Bytes
import SignatureLedger.Proofs.Text.Comment
import SignatureLedger.Proofs.Text.Display
import SignatureLedger.Proofs.Text.Encoding
import SignatureLedger.Proofs.Text.Json
import SignatureLedger.Proofs.Text.Rendering
import SignatureLedger.Proofs.Text.Utf8
import SignatureLedger.Proofs.Token.Braced
import SignatureLedger.Proofs.Token.Closing
import SignatureLedger.Proofs.Token.Cuts
import SignatureLedger.Proofs.Token.Descent
import SignatureLedger.Proofs.Token.Findings
import SignatureLedger.Proofs.Token.Lossless
import SignatureLedger.Proofs.Token.Numbers
import SignatureLedger.Proofs.Token.Places
import SignatureLedger.Proofs.Token.Tiles
import SignatureLedger.Proofs.Token.Trivia
import SignatureLedger.Proofs.Token.WideBlanks
import SignatureLedger.Proofs.Token.Widths
import SignatureLedger.Proofs.Token.Words
import SignatureLedger.Sha256
import SignatureLedger.Signature
import SignatureLedger.Signature.Extract
import SignatureLedger.Signature.Normal
import SignatureLedger.Source.File
import SignatureLedger.Source.Map
import SignatureLedger.Text.Bytes
import SignatureLedger.Text.Columns
import SignatureLedger.Text.Comment
import SignatureLedger.Text.Quoted
import SignatureLedger.Text.Utf8
import SignatureLedger.Token
import SignatureLedger.Token.Cursor
import SignatureLedger.Token.Lexer
import SignatureLedger.Token.Scan
