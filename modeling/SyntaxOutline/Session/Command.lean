import SyntaxOutline.Session.Notice

/-! # Commands

Everything that a host can do to a session, as data. A session is reached from its start by
performing a list of commands. -/
namespace SyntaxOutline

inductive Command (κ : Type) where
  | setSource (text : String)
  | applyParse (outcome : Except Failure Node)
  | applyReply (text detail : String)
  | moveCursor (offset : Nat)
  | select (path : NodePath)
  | clearSelection
  | toggle (path : NodePath)
  | setExpanded (path : NodePath) (expanded : Bool)
  | expandAll
  | collapseAll
  | setExpansion (expanded : Expansion)
  | refresh
  | act (action : Action κ)
  | press (custom : KeyEvent → Option κ) (key : KeyEvent)
  | setProfile (profile : Profile)
  | cycleProfile

/-- What a command gives back. -/
inductive Outcome (κ : Type) where
  | done
  | path (path : Option NodePath)
  | flag (value : Bool)
  | response (response : Response κ)
deriving DecidableEq, Repr

namespace Session

variable {κ : Type}

def perform (s : Session) : Command κ → Session × Outcome κ
  | .setSource text => (s.setSource text, .done)
  | .applyParse outcome => (s.applyParse outcome, .done)
  | .applyReply text detail => (s.applyReply text detail, .done)
  | .moveCursor offset => (s.moveCursor offset).map id .path
  | .select path => (s.select path).map id .flag
  | .clearSelection => (s.clearSelection, .done)
  | .toggle path => (s.toggle path, .done)
  | .setExpanded path expanded => (s.setExpanded path expanded, .done)
  | .expandAll => (s.expandAll, .done)
  | .collapseAll => (s.collapseAll, .done)
  | .setExpansion expanded => (s.setExpansion expanded, .done)
  | .refresh => (s.refresh, .done)
  | .act action => (s.act action).map id .response
  | .press custom key => (s.press custom key).map id .response
  | .setProfile profile => (s.setProfile profile, .done)
  | .cycleProfile => (s.setProfile s.profile.cycle, .done)

/-- What a command reports to the log. -/
def notices (s : Session) : Command κ → List Notice
  | .setSource text => sourceNotices text
  | .applyParse outcome => s.parseNotices outcome
  | .applyReply text detail => s.replyNotices text detail
  | .moveCursor offset => s.cursorNotices offset
  | _ => []

def run (s : Session) (commands : List (Command κ)) : Session :=
  commands.foldl (fun s command => (s.perform command).1) s

end Session

end SyntaxOutline
