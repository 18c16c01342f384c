import SyntaxOutline.Session

/-! # Notices

What a session reports to the log of its host, and the line that each report makes. -/
namespace SyntaxOutline

inductive Notice where
  | sourceReplaced (bytes lines : Nat)
  | treeReplaced (nodes dropped : Nat)
  | parseFailed (failure : Failure)
  | cursorResolved (offset : Nat) (path : NodePath)
  | nestingBroken (fault : SpanFault)
deriving DecidableEq, Repr

namespace Notice

def line : Notice → String
  | sourceReplaced bytes lines =>
    "debug: source replaced: " ++ toString bytes ++ " bytes, " ++ toString lines ++ " lines"
  | treeReplaced nodes dropped =>
    "debug: tree replaced: " ++ toString nodes ++ " nodes, " ++ toString dropped ++
      " stale expanded ids dropped"
  | parseFailed failure => "debug: parse failed: " ++ failure.message
  | cursorResolved offset path =>
    "debug: cursor at " ++ toString offset ++ " resolves to node " ++ path.text
  | nestingBroken fault => "warn: parser tree breaks range nesting: " ++ fault.message

end Notice

/-- What reading a reply reports: the first fault in the nesting of the tree's spans. -/
def readingNotices : Except Failure Node → List Notice
  | .ok tree => tree.spanFault?.toList.map .nestingBroken
  | .error _ => []

namespace Session

def sourceNotices (text : String) : List Notice :=
  let lines := LineTable.ofText text
  [.sourceReplaced lines.size lines.lineCount]

def parseNotices (s : Session) : Except Failure Node → List Notice
  | .ok tree =>
    let listing := Listing.ofTree (some tree)
    [.treeReplaced listing.size (s.expanded.staleCount listing)]
  | .error failure => [.parseFailed failure]

def replyNotices (s : Session) (text detail : String) : List Notice :=
  let outcome := decodeReply text detail s.settings
  readingNotices outcome ++ s.parseNotices outcome

def cursorNotices (s : Session) (offset : Nat) : List Notice :=
  (s.locate? offset).toList.map fun path => .cursorResolved offset path

end Session

end SyntaxOutline
