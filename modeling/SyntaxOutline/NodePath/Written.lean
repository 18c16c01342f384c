import SyntaxOutline.NodePath.Text

/-! # Paths kept in their written form

A host keeps a path as its text and asks the text for what it needs. A step down adds a part at the
end, a step up cuts the text off at its last hyphen, and the depth is the number of hyphens. A path
leads through another one if its text is that of the other one, a hyphen, and more. -/
namespace SyntaxOutline

/-- What stands before the last separator and after it. -/
def Text.cutLast (separator : Char) : List Char → Option (List Char × List Char)
  | [] => none
  | c :: rest =>
    match cutLast separator rest with
    | some (before, after) => some (c :: before, after)
    | none => if c = separator then some ([], rest) else none

theorem Text.cutLast_of_not_mem {separator : Char} {text : List Char} (h : separator ∉ text) :
    cutLast separator text = none := by
  induction text with
  | nil => rfl
  | cons c rest ih =>
    rw [List.mem_cons, not_or] at h
    simp [cutLast, ih h.2, Ne.symm h.1]

theorem Text.cutLast_append {separator : Char} {after : List Char} (h : separator ∉ after)
    (before : List Char) :
    cutLast separator (before ++ separator :: after) = some (before, after) := by
  induction before with
  | nil => simp [cutLast, cutLast_of_not_mem h]
  | cons c rest ih => simp [cutLast, ih]

theorem Text.length_lt_of_cutLast {separator : Char} {text before after : List Char}
    (h : cutLast separator text = some (before, after)) : before.length < text.length := by
  induction text generalizing before with
  | nil => cases h
  | cons c rest ih =>
    rw [cutLast] at h
    split at h
    next front back hrest =>
      obtain ⟨rfl, rfl⟩ := Prod.mk.inj (Option.some.inj h)
      simpa using ih hrest
    next =>
      split at h
      next =>
        obtain ⟨rfl, rfl⟩ := Prod.mk.inj (Option.some.inj h)
        simp
      next => cases h

structure WrittenPath where
  text : String
deriving DecidableEq, Repr

namespace WrittenPath

/-- Checks a text and keeps it as it is. -/
def ofText (text : String) : Except PathFault WrittenPath :=
  (NodePath.ofText text).map fun _ => ⟨text⟩

def root : WrittenPath := ⟨"0"⟩

def child (w : WrittenPath) (ordinal : Nat) : WrittenPath := ⟨w.text ++ "-" ++ toString ordinal⟩

def isRoot (w : WrittenPath) : Bool := !w.text.toList.contains '-'

def parent? (w : WrittenPath) : Option WrittenPath :=
  (Text.cutLast '-' w.text.toList).map fun cut => ⟨String.ofList cut.1⟩

def depth (w : WrittenPath) : Nat := w.text.toList.count '-'

/-- The parts between the hyphens, of which the first one stands for the root. -/
def segments (w : WrittenPath) : List (List Char) := w.text.toList.splitOn '-'

/-- The segments below the root that are words. -/
def ordinals (w : WrittenPath) : List Nat := w.segments.tail.filterMap Text.readWord

def ordinal? (w : WrittenPath) : Option Nat :=
  (Text.cutLast '-' w.text.toList).bind fun cut => Text.readWord cut.2

def isAncestorOf (v w : WrittenPath) : Bool :=
  v.text.utf8ByteSize < w.text.utf8ByteSize && v.text.toList.isPrefixOf w.text.toList &&
    (w.text.toList.drop v.text.toList.length).head? == some '-'

theorem length_parent?_lt {w parent : WrittenPath} (h : w.parent? = some parent) :
    parent.text.length < w.text.length := by
  obtain ⟨cut, hcut, rfl⟩ := Option.map_eq_some_iff.1 h
  rw [String.length_ofList, ← String.length_toList]
  exact Text.length_lt_of_cutLast hcut

/-- The parent, the parent's parent, and so on up to the root. -/
def ascent (w : WrittenPath) : List WrittenPath :=
  match _h : w.parent? with
  | none => []
  | some parent => parent :: parent.ascent
termination_by w.text.length
decreasing_by exact length_parent?_lt _h

/-- The ascent from the root downwards. -/
def ancestors (w : WrittenPath) : List WrittenPath := w.ascent.reverse

end WrittenPath

end SyntaxOutline
