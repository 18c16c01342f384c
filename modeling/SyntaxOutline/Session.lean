import SyntaxOutline.Keys
import SyntaxOutline.LineTable
import SyntaxOutline.Node.Locate
import SyntaxOutline.Reported.Reply
import SyntaxOutline.Rows

/-! # Sessions

A session is the state of one outline: the source, its tree or the problem that kept it from having
one, the expanded nodes, the selected node and the span to highlight. The list of visible paths is
kept between changes. It is stale from a change that may concern it until the next refresh, which
also moves a selection that has become hidden up to a row that shows. -/
namespace SyntaxOutline

structure Session where
  settings : Settings
  source : String := ""
  lines : LineTable := .empty
  tree : Option Node := none
  problem : Option Diagnostic := none
  selected : Option NodePath := none
  expanded : Expansion := ∅
  highlight : Option Span := none
  visible : List NodePath := []
  stale : Bool := true
  profile : Profile := .standard

namespace Session

def start (settings : Settings) : Session := { settings }

def listing (s : Session) : Listing := Listing.ofTree s.tree

def node? (s : Session) (path : NodePath) : Option Node := s.tree.bind (·.at? path)

def selectedNode? (s : Session) : Option Node := s.selected.bind s.node?

/-- The rows that show, worked out anew. -/
def rows (s : Session) : List Row := s.listing.rows s.expanded

def setSource (s : Session) (text : String) : Session :=
  { s with source := text, lines := LineTable.ofText text }

/-- Takes a new tree. Expanded paths that name no node with children are dropped; if that leaves
none, the tree is expanded to the initial depth. -/
def applyTree (s : Session) (tree : Node) : Session :=
  let listing := Listing.ofTree (some tree)
  let kept := s.expanded.retainListed listing
  let selected := s.selected.filter listing.contains
  { s with
    tree := some tree
    problem := none
    expanded := if kept.isEmpty then kept.expandToDepth listing s.settings.initialDepth else kept
    selected
    highlight := (selected.bind listing.get?).map (·.node.span)
    stale := true }

/-- Drops the tree, and keeps the expanded paths for the next one. -/
def applyFailure (s : Session) (failure : Failure) : Session :=
  { s with
    tree := none
    problem := some failure.diagnostic
    selected := none
    highlight := none
    stale := true }

def applyParse (s : Session) : Except Failure Node → Session
  | .ok tree => s.applyTree tree
  | .error failure => s.applyFailure failure

def applyReply (s : Session) (text detail : String) : Session :=
  s.applyParse (decodeReply text detail s.settings)

def clearSelection (s : Session) : Session := { s with selected := none, highlight := none }

/-- Selects a node of the tree, if the path names one. A row that does not show makes the visible
paths stale. -/
def select (s : Session) (path : NodePath) : Session × Bool :=
  match s.node? path with
  | none => (s, false)
  | some node =>
    ({ s with
        selected := some path
        highlight := some node.span
        stale := s.stale || !decide (path ∈ s.visible) }, true)

def setExpansion (s : Session) (expanded : Expansion) : Session :=
  { s with expanded, stale := true }

def toggle (s : Session) (path : NodePath) : Session := s.setExpansion (s.expanded.toggle path).1

def setExpanded (s : Session) (path : NodePath) (expanded : Bool) : Session :=
  s.setExpansion (s.expanded.setExpanded path expanded)

def expandAll (s : Session) : Session := s.setExpansion (s.expanded.expandAll s.listing)

def collapseAll (s : Session) : Session := s.setExpansion s.expanded.collapseAll

/-- The innermost node at an offset. -/
def locate? (s : Session) (offset : Nat) : Option NodePath :=
  (s.tree.bind (·.locate? offset)).map (·.2)

/-- Selects the node at the cursor, opening the outline down to it if the settings say so. -/
def moveCursor (s : Session) (offset : Nat) : Session × Option NodePath :=
  match s.locate? offset with
  | none => (s.clearSelection, none)
  | some path =>
    let opened :=
      if s.settings.followCursor then s.setExpansion (s.expanded.expandTo path) else s
    ((opened.select path).1, some path)

/-- Moves a selection that does not show up to its nearest ancestor that does. -/
def clampSelection (s : Session) : Session :=
  match s.selected with
  | none => s
  | some path =>
    if path ∈ s.visible then s
    else
      match path.ancestors.reverse.find? (· ∈ s.visible) with
      | some ancestor => (s.select ancestor).1
      | none => s.clearSelection

/-- Brings the visible paths up to date. -/
def refresh (s : Session) : Session :=
  if s.stale then
    { s with visible := s.listing.visiblePaths s.expanded, stale := false }.clampSelection
  else s

def selectTarget (s : Session) : Option NodePath → Session × Bool
  | none => (s, false)
  | some path => s.select path

/-- One step along the visible rows; without a selection, to the first of them. -/
def stepTarget (s : Session) (direction : NodePath → List NodePath → Option NodePath) :
    Option NodePath :=
  match s.selected with
  | none => s.visible.head?
  | some path => direction path s.visible

def selectChild (s : Session) : Session × Bool :=
  match s.selected with
  | none => (s, false)
  | some path =>
    if s.listing.hasChildren path then
      let opened :=
        { s with
          expanded := s.expanded.insert path
          stale := s.stale || !s.expanded.contains path }
      opened.selectTarget (firstChildPath? s.listing opened.expanded path)
    else (s, false)

/-- Opens or closes the selected node; with `subtree`, all nodes below it too. -/
def toggleSelected (s : Session) (subtree : Bool) : Session × Bool :=
  match s.selected with
  | none => (s, false)
  | some path =>
    if s.listing.hasChildren path then
      let expanded :=
        if !subtree then (s.expanded.toggle path).1
        else if s.expanded.contains path then s.expanded.collapseSubtree s.listing path
        else s.expanded.expandSubtree s.listing path
      (s.setExpansion expanded, true)
    else (s, false)

/-- Carries out an operation on an outline that has rows, and tells whether it applied. -/
def operate (s : Session) : Operation → Session × Bool
  | .selectPrevious => s.selectTarget (s.stepTarget previousPath?)
  | .selectNext => s.selectTarget (s.stepTarget nextPath?)
  | .selectParent => s.selectTarget (s.selected.bind (·.parent?))
  | .selectChild => s.selectChild
  | .selectFirst => s.selectTarget s.visible.head?
  | .selectLast => s.selectTarget s.visible.getLast?
  | .toggle => s.toggleSelected false
  | .toggleSubtree => s.toggleSelected true
  | .expandAll => (s.expandAll, true)
  | .collapseAll => (s.collapseAll, true)

/-- Carries out an action. A custom one goes back to the host and changes nothing. -/
def act {κ : Type} (s : Session) : Action κ → Session × Response κ
  | .custom value => (s, .custom value)
  | .operate operation =>
    let fresh := s.refresh
    if fresh.visible.isEmpty then (fresh, .unhandled)
    else
      let (after, applied) := fresh.operate operation
      (after, if applied then .handled else .unhandled)

/-- Carries out what a key is bound to, with the host's own bindings in front. -/
def press {κ : Type} (s : Session) (custom : KeyEvent → Option κ) (key : KeyEvent) :
    Session × Response κ :=
  match s.profile.resolveWith custom key with
  | some action => s.act action
  | none => (s, .unhandled)

def setProfile (s : Session) (profile : Profile) : Session := { s with profile }

end Session

end SyntaxOutline
