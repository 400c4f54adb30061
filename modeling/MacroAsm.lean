import MacroAsm.FileStore
import MacroAsm.Interchange.File
import MacroAsm.Proofs.Fold.Climb
import MacroAsm.Proofs.Fold.Resolution
import MacroAsm.Proofs.Fold.Tree
import MacroAsm.Proofs.Node
import MacroAsm.Proofs.Scope.Form
import MacroAsm.Proofs.Fold.Sound
import MacroAsm.Proofs.Scope.Split
import MacroAsm.Proofs.Token.Marks
import MacroAsm.Proofs.Fold.Marks
import MacroAsm.Proofs.Fold.Label
import MacroAsm.Proofs.Reader.Label
import MacroAsm.Proofs.Print.Legible
import MacroAsm.Proofs.Print.Quoted
import MacroAsm.Proofs.Print.Lexemes
import MacroAsm.Proofs.Print.Scan
import MacroAsm.Proofs.Print.Spacing
import MacroAsm.Proofs.Print.Nest
import MacroAsm.Proofs.Print.Fold
import MacroAsm.Proofs.Reader.RoundTrip
import MacroAsm.Proofs.Word
import MacroAsm.Proofs.Fold.Words
import MacroAsm.Proofs.Line.Region
import MacroAsm.Proofs.Line.Builder
import MacroAsm.Proofs.Line.Split
import MacroAsm.Proofs.Line.Strings
import MacroAsm.Proofs.Token.Strings
import MacroAsm.Proofs.Line.Shift
import MacroAsm.Proofs.Reader.Append
import MacroAsm.Proofs.Line.Order
import MacroAsm.Proofs.Reader.Collect
import MacroAsm.Proofs.Reader.Policy
import MacroAsm.Proofs.Reader.Quoting
import MacroAsm.Proofs.Token.Context
import MacroAsm.Proofs.Scope.Bracket
import MacroAsm.Proofs.Scope.BareCall
import MacroAsm.Proofs.Reader.BareCall
import MacroAsm.Proofs.Scope.Moved
import MacroAsm.Proofs.Token.Blanks
import MacroAsm.Proofs.Reader.Blanks
import MacroAsm.Proofs.Line.Returns
import MacroAsm.Proofs.Reader.Gather
import MacroAsm.Proofs.Reader.Returns
import MacroAsm.Proofs.FileStore
import MacroAsm.Proofs.Json.Text
import MacroAsm.Proofs.Json.Form
import MacroAsm.Proofs.Interchange.Node
import MacroAsm.Proofs.Interchange.Diagnostic
import MacroAsm.Proofs.Interchange.File
import MacroAsm.Proofs.Reader.Fields
import MacroAsm.Proofs.Scope.Void
import MacroAsm.Proofs.Reader.Empty
import MacroAsm.Proofs.Scope.Reach
import MacroAsm.Proofs.Token.Order
import MacroAsm.Proofs.Scope.Dot
import MacroAsm.Proofs.Scope.Grow
import MacroAsm.Proofs.Reader.Sign
import MacroAsm.Proofs.Reader.Limit
import MacroAsm.Proofs.Fold.Obstacle
import MacroAsm.Proofs.Token.Cover
import MacroAsm.Proofs.Token.Munch
import MacroAsm.Proofs.Token.Layout
import MacroAsm.Proofs.Token.Colons
import MacroAsm.Proofs.Reader.Implied
import MacroAsm.Proofs.Scope.Step
import MacroAsm.Proofs.Scope.Written
import MacroAsm.Proofs.Scope.Matching
import MacroAsm.Proofs.Scope.Shape
import MacroAsm.Proofs.Number.Notation
import MacroAsm.Proofs.Fold.Judgment
import MacroAsm.Proofs.Reader.Culprit
import MacroAsm.Proofs.Token.Arguments
import MacroAsm.Proofs.Scope.Arguments
import MacroAsm.Proofs.Reader.Arguments
import MacroAsm.Proofs.Fold.Turns
import MacroAsm.Proofs.Token.Checked
import MacroAsm.Proofs.Scope.Checked
import MacroAsm.Proofs.Fold.Checked
import MacroAsm.Proofs.Reader.Checked
