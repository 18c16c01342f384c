import SyntaxOutline.Diagnostic
import SyntaxOutline.Node.SpanCheck
import SyntaxOutline.Reported.Node
import SyntaxOutline.Settings

/-! # Replies of the parser

A reply is a record of two texts that may be missing: a tree, itself in JSON, and an error message.
A message that is not empty rejects the source. The tree may nest to any depth.

A text that cannot be read makes a failure with a detail, which is what the host's JSON reader has
to say of the text. -/
namespace SyntaxOutline

open Json

structure Reply where
  tree : Option String := none
  error : Option String := none
deriving DecidableEq, Repr

/-- Reads a reported tree of any depth and rebases it. -/
def decodeTree (text detail : String) (base : Nat) : Except Failure Node :=
  match Json.parse text with
  | none => .error (.malformed detail)
  | some value =>
    match ReportedNode.ofJson? value.depth value with
    | none => .error (.malformed detail)
    | some report => .ok (report.toNode base)

namespace Reply

def isEmpty (r : Reply) : Bool := r.tree.isNone && r.error.isNone

def ofJson? : Nat → Json → Option Reply
  | 0, _ => none
  | _ + 1, value => do
    let fields ← value.toRecord? ["ast", "error"]
    let tree ← fieldOr fields "ast" none (toOption? toText?)
    let error ← fieldOr fields "error" none (toOption? toText?)
    some { tree, error }

def ofText (text detail : String) : Except Failure Reply :=
  match Json.parse text with
  | none => .error (.malformed detail)
  | some value =>
    match ofJson? nestingLimit value with
    | none => .error (.malformed detail)
    | some reply => .ok reply

/-- The tree of a reply. A message comes first, and an empty text is as good as none. -/
def toTree (r : Reply) (detail : String) (settings : Settings) : Except Failure Node :=
  match r.error.filter (· ≠ ""), r.tree.filter (· ≠ "") with
  | some message, _ => .error (.rejected (Diagnostic.ofMessage message))
  | none, none => .error .missingTree
  | none, some text => decodeTree text detail settings.positionBase

end Reply

def decodeReply (text detail : String) (settings : Settings) : Except Failure Node :=
  (Reply.ofText text detail).bind fun reply => reply.toTree detail settings

end SyntaxOutline
