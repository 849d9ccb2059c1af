import TreeText.Label
import TreeText.Main
import TreeText.Proofs.Token.Spelling
import TreeText.Proofs.Tree.FirstFault
import TreeText.Proofs.Tree.HashStream
import TreeText.Proofs.Tree.RoundTrip
import TreeText.Tree.Position
import TreeText.Proofs.Expression.Validity
import TreeText.Proofs.Expression.Checked
import TreeText.Proofs.Expression.Exact
import TreeText.Proofs.Expression.Readability
import TreeText.Proofs.Command.Failures
import TreeText.Proofs.Expression.Text
import TreeText.Proofs.Command.Arguments
import TreeText.Proofs.Command.Calls
import TreeText.Proofs.Tree.Equality
import TreeText.Proofs.Command.Expressions
import TreeText.Proofs.Command.Output
import TreeText.Proofs.Tree.Locality
import TreeText.Proofs.Tree.Visits
import TreeText.Proofs.Expression.Replacement
import TreeText.Proofs.Expression.Chain
import TreeText.Tree.Change
import TreeText.Proofs.Tree.Paths
import TreeText.Proofs.Tree.Containment
import TreeText.Proofs.Tree.Splicing
import TreeText.Proofs.Tree.Lines
import TreeText.Proofs.Tree.Indented
import TreeText.Proofs.Tree.Drawn
import TreeText.Proofs.Token.Munch
import TreeText.Proofs.Token.Pushback
import TreeText.Proofs.Settings.Layers
import TreeText.Proofs.Reader
import TreeText.Proofs.Toml.Entry
import TreeText.Proofs.Settings.Written
import TreeText.Proofs.Expression.Literal
import TreeText.Proofs.Tree.Descent
