/-! # Actions on an outline

What a host program may ask for on behalf of its user: one of the operations that every outline
knows, or an action of the host's own, which is handed back to it. -/
namespace SyntaxOutline

inductive Operation where
  | selectPrevious
  | selectNext
  | selectParent
  | selectChild
  | selectFirst
  | selectLast
  | toggle
  | toggleSubtree
  | expandAll
  | collapseAll
deriving DecidableEq, Repr

inductive Action (κ : Type) where
  | operate (operation : Operation)
  | custom (value : κ)
deriving DecidableEq, Repr

inductive Response (κ : Type) where
  | handled
  | unhandled
  | custom (value : κ)
deriving DecidableEq, Repr

end SyntaxOutline
