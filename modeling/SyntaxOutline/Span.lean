/-! # Spans of a source text

A span is a pair of byte offsets. A cursor may stand at either end of it, so covering is inclusive
on both sides. Spans come from outside and may be inverted. -/
namespace SyntaxOutline

structure Span where
  start : Nat
  stop : Nat
deriving DecidableEq, Repr

namespace Span

/-- The span of width zero at an offset. -/
def point (offset : Nat) : Span := ⟨offset, offset⟩

def covers (s : Span) (offset : Nat) : Bool := s.start ≤ offset && offset ≤ s.stop

def contains (s t : Span) : Bool := s.start ≤ t.start && t.stop ≤ s.stop

/-- Bytes between the two ends; an inverted span has none. -/
def length (s : Span) : Nat := s.stop - s.start

def isEmpty (s : Span) : Bool := s.stop ≤ s.start

/-- The form in which messages show a span. -/
def describe (s : Span) : String :=
  "TextRange \x7b start: " ++ toString s.start ++ ", end: " ++ toString s.stop ++ " \x7d"

theorem covers_iff {s : Span} {offset : Nat} :
    s.covers offset = true ↔ s.start ≤ offset ∧ offset ≤ s.stop := by simp [covers]

theorem contains_iff {s t : Span} :
    s.contains t = true ↔ s.start ≤ t.start ∧ t.stop ≤ s.stop := by simp [contains]

end Span

end SyntaxOutline
