import SyntaxOutline.Text.Numeral
import SyntaxOutline.Text.Blank
import SyntaxOutline.Binary64
import SyntaxOutline.Span
import SyntaxOutline.LineTable
import SyntaxOutline.NodePath
import SyntaxOutline.NodePath.Text
import SyntaxOutline.NodePath.Written
import SyntaxOutline.Attributes
import SyntaxOutline.Node
import SyntaxOutline.Node.SpanCheck
import SyntaxOutline.Node.Locate
import SyntaxOutline.Listing
import SyntaxOutline.Expansion
import SyntaxOutline.Rows
import SyntaxOutline.Diagnostic
import SyntaxOutline.Settings
import SyntaxOutline.Json
import SyntaxOutline.Json.Numeral
import SyntaxOutline.Json.Quoted
import SyntaxOutline.Json.Token
import SyntaxOutline.Json.Text
import SyntaxOutline.Json.Decode
import SyntaxOutline.Json.Rounding
import SyntaxOutline.Stored.Basic
import SyntaxOutline.Stored.Attributes
import SyntaxOutline.Stored.Node
import SyntaxOutline.Stored.Expansion
import SyntaxOutline.Reported.Node
import SyntaxOutline.Reported.Reply
import SyntaxOutline.Action
import SyntaxOutline.Keys
import SyntaxOutline.Session
import SyntaxOutline.Session.Notice
import SyntaxOutline.Session.Command
import SyntaxOutline.Proofs.Text.Numeral
import SyntaxOutline.Proofs.NodePath.Text
import SyntaxOutline.Proofs.Node.Descent
import SyntaxOutline.Proofs.Listing.Preorder
import SyntaxOutline.Proofs.NodePath.Order
import SyntaxOutline.Proofs.Listing.Lookup
import SyntaxOutline.Proofs.Session.Moves
import SyntaxOutline.Proofs.Session.Coherence
import SyntaxOutline.Proofs.Json.Weight
import SyntaxOutline.Proofs.Json.Decode
import SyntaxOutline.Proofs.Reported.Rebasing
import SyntaxOutline.Proofs.Reported.Size
import SyntaxOutline.Proofs.Session.Runs
import SyntaxOutline.Proofs.Json.Numeral
import SyntaxOutline.Proofs.Json.Token
import SyntaxOutline.Proofs.Json.Text
import SyntaxOutline.Proofs.Stored.Attributes
import SyntaxOutline.Proofs.Reported.RoundTrip
import SyntaxOutline.Proofs.Rows.Visible
import SyntaxOutline.Proofs.Rows.Steps
import SyntaxOutline.Proofs.Session.Fresh
import SyntaxOutline.Proofs.Session.Responses
import SyntaxOutline.Proofs.Session.Walk
import SyntaxOutline.Proofs.Session.Lookup
import SyntaxOutline.Proofs.Node.Locate
import SyntaxOutline.Proofs.Expansion.Members
import SyntaxOutline.Proofs.Session.Cursor
import SyntaxOutline.Proofs.Session.Expanded
import SyntaxOutline.Proofs.Session.Reparse
import SyntaxOutline.Proofs.Stored.RoundTrip
import SyntaxOutline.Proofs.Node.Nesting
import SyntaxOutline.Proofs.Node.SpanFault
import SyntaxOutline.Proofs.Node.Search
import SyntaxOutline.Proofs.Listing.Innermost
import SyntaxOutline.Proofs.LineTable.Lines
import SyntaxOutline.Proofs.LineTable.Conversion
import SyntaxOutline.Proofs.Listing.Subtree
import SyntaxOutline.Proofs.NodePath.Written
import SyntaxOutline.Proofs.NodePath.Grammar
import SyntaxOutline.Proofs.NodePath.Ancestry
import SyntaxOutline.Proofs.Reported.Nesting
import SyntaxOutline.Proofs.Session.Clamping
import SyntaxOutline.Proofs.Rows.Folding
import SyntaxOutline.Proofs.Rows.Bulk
import SyntaxOutline.Proofs.Session.Following
import SyntaxOutline.Proofs.Session.Levels
import SyntaxOutline.Proofs.Session.Toggling
import SyntaxOutline.Proofs.Rows.Stale
import SyntaxOutline.Proofs.Rows.Navigation
import SyntaxOutline.Proofs.Diagnostic.Location
import SyntaxOutline.Proofs.Node.FaultOrder
