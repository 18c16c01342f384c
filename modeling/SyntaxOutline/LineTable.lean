import SyntaxOutline.Text.Numeral

/-! # Lines of a source text

A line table holds the byte offset at which each line of a text starts, and the length of the text
in bytes. It turns a byte offset into a line and column, both counted from one, and back. Columns
count bytes and are not bounded by the length of a line. -/
namespace SyntaxOutline

/-- A place in a text: line and column count from one, the offset from zero. -/
structure Position where
  line : Nat
  column : Nat
  offset : Nat
deriving DecidableEq, Repr

structure LineTable where
  /-- Offsets at which lines start, in ascending order. -/
  starts : Array Nat
  /-- Length of the text in bytes. -/
  size : Nat
  /-- Every text has a first line. -/
  starts_size_pos : 0 < starts.size
deriving DecidableEq

namespace LineTable

/-- The table of the empty text. -/
def empty : LineTable := ⟨#[0], 0, by decide⟩

/-- The byte that ends a line. -/
def lineFeed : UInt8 := 10

/-- The table of a text with one more byte at its end. -/
def push (t : LineTable) (byte : UInt8) : LineTable :=
  if byte = lineFeed then
    ⟨t.starts.push (t.size + 1), t.size + 1, by simp⟩
  else
    { t with size := t.size + 1 }

def ofBytes (bytes : List UInt8) : LineTable := bytes.foldl push empty

/-- The table of a text, over its UTF-8 bytes. -/
def ofText (text : String) : LineTable := ofBytes text.toUTF8.data.toList

def lineCount (t : LineTable) : Nat := t.starts.size

def isEmpty (t : LineTable) : Bool := t.size == 0

/-- Offset at which a line, counted from one, starts. -/
def lineStart? (t : LineTable) : Nat → Option Nat
  | 0 => none
  | index + 1 => t.starts[index]?

/-- Index of the last entry that is at most `offset`, sought by halving the window between `low`,
whose entry is at most `offset`, and `high`, from which on all entries are above it. -/
def lastAtMost (starts : Array Nat) (offset low high : Nat) : Nat :=
  if low + 1 < high then
    let middle := (low + high) / 2
    if starts.getD middle 0 ≤ offset then lastAtMost starts offset middle high
    else lastAtMost starts offset low middle
  else low
termination_by high - low

/-- Line and column of an offset; offsets past the end stay on the last line. -/
def position (t : LineTable) (offset : Nat) : Position :=
  let index := lastAtMost t.starts offset 0 t.starts.size
  { line := index + 1, column := offset - t.starts.getD index 0 + 1, offset := offset }

/-- Offset of a line and column. The sum of the line's start and the column is itself held in a
word, so it has to stay below the limit before the one is taken off. -/
def offset? (t : LineTable) (line column : Nat) : Option Nat := do
  let start ← t.lineStart? line
  if 0 < start + column ∧ start + column < Text.wordLimit then some (start + column - 1) else none

theorem ofBytes_append_singleton (bytes : List UInt8) (byte : UInt8) :
    ofBytes (bytes ++ [byte]) = (ofBytes bytes).push byte := by
  simp [ofBytes]

theorem size_push (t : LineTable) (byte : UInt8) : (t.push byte).size = t.size + 1 := by
  unfold push; split <;> rfl

theorem lineStart?_eq_none_iff {t : LineTable} {line : Nat} :
    t.lineStart? line = none ↔ line = 0 ∨ t.lineCount < line := by
  cases line with
  | zero => simp [lineStart?]
  | succ index =>
    rw [lineStart?, lineCount, Array.getElem?_eq_none_iff]
    omega

end LineTable

end SyntaxOutline
