/-! # Settings of an outline

How the parser counts positions, how far a first tree is expanded, and whether the outline follows
the cursor. -/
namespace SyntaxOutline

structure Settings where
  /-- The number that the parser gives to the first byte of a source. -/
  positionBase : Nat := 1
  /-- Levels above this one are expanded in the first tree. -/
  initialDepth : Nat := 1
  /-- Whether the outline opens up to show the node at the cursor. -/
  followCursor : Bool := true
deriving DecidableEq, Repr

/-- Settings for a parser that counts positions from zero. -/
def Settings.zeroBased : Settings := { positionBase := 0 }

end SyntaxOutline
