import UnusedImports.CommandLine.Run
import UnusedImports.Excision.Erasure
import UnusedImports.Main
import UnusedImports.Proofs.Settlement
import UnusedImports.Proofs.Outline.Nesting
import UnusedImports.Proofs.Outline.Phrase
import UnusedImports.Proofs.Outline.Item
import UnusedImports.Proofs.Outline.Pieces
import UnusedImports.Proofs.Reference
import UnusedImports.Proofs.Safety
import UnusedImports.Proofs.Text.Offset
import UnusedImports.Proofs.Text.Lines
import UnusedImports.Proofs.Token.Shape
import UnusedImports.Proofs.Token.Lexer
import UnusedImports.Proofs.Token.Layout
import UnusedImports.Proofs.Token.Moves
import UnusedImports.Proofs.Token.ShortName
import UnusedImports.Proofs.Token.Depth
import UnusedImports.Proofs.Token.Interpolation
import UnusedImports.Proofs.Token.Slash
import UnusedImports.Proofs.Outline.Level
import UnusedImports.Proofs.Outline.Reading
import UnusedImports.Proofs.Outline.Collection
import UnusedImports.Proofs.Outline.Separation
import UnusedImports.Proofs.Excision.Marks
import UnusedImports.Proofs.Excision.Shelter
import UnusedImports.Proofs.Excision.Selection
import UnusedImports.Proofs.Excision.Kept
import UnusedImports.Proofs.Excision.Reach
import UnusedImports.Proofs.Excision.Preservation
import UnusedImports.Proofs.Stability
import UnusedImports.Proofs.Removal
import UnusedImports.Proofs.Noninterference
import UnusedImports.Proofs.LineEnd.Trim
import UnusedImports.Proofs.Outline.Division
import UnusedImports.Proofs.BareNames
import UnusedImports.Proofs.Files.Trimming
import UnusedImports.Proofs.Text.Utf8
import UnusedImports.Proofs.CommandLine.Modes
import UnusedImports.Proofs.ByteOrderMark.Outline
import UnusedImports.Proofs.ByteOrderMark.Lines
import UnusedImports.Proofs.ByteOrderMark.Plan
import UnusedImports.Proofs.ByteOrderMark.FirstLine
import UnusedImports.Proofs.ByteOrderMark.Trim
import UnusedImports.Proofs.Judgement
import UnusedImports.Proofs.TopLevelImports
import UnusedImports.Proofs.ImportEnd
import UnusedImports.Proofs.Excision.Density
import UnusedImports.Proofs.Excision.BlankLines
import UnusedImports.Proofs.Display
import UnusedImports.Proofs.Coherence
import UnusedImports.Proofs.Settings.Layers
import UnusedImports.Proofs.Files.Discovery
import UnusedImports.Proofs.Excision.Joining
import UnusedImports.Proofs.Excision.Trailing
import UnusedImports.Proofs.Outline.Matching
import UnusedImports.Proofs.Text.Counting
import UnusedImports.Proofs.Text.Slice
import UnusedImports.Proofs.Token.Munch
import UnusedImports.Proofs.Token.Bounds
import UnusedImports.Proofs.Excision.Copy
import UnusedImports.Proofs.Outline.Bounds
import UnusedImports.Proofs.Bounds
