import SyntaxOutline.Node
import SyntaxOutline.Stored.Attributes

/-! # Trees as the parser reports them

The parser counts positions from a base of its own, writes an absent list as null and an absent
field name as an empty text. All fields may be missing. Rebasing turns a report into a tree; it
works through the report with the nodes that still wait for children on a stack. -/
namespace SyntaxOutline

open Json

structure ReportedNode where
  kind : String := ""
  start : Nat := 0
  stop : Nat := 0
  children : Option (List ReportedNode) := none
  attributes : Option Attributes := none
  fieldName : Option String := none
deriving Repr

namespace ReportedNode

def fieldNames : List String := ["type", "pos", "end", "children", "metadata", "fieldName"]

def ofJson? : Nat → Json → Option ReportedNode
  | 0, _ => none
  | nesting + 1, value => do
    let fields ← value.toRecord? fieldNames
    let kind ← fieldOr fields "type" "" toText?
    let start ← fieldOr fields "pos" 0 toWord?
    let stop ← fieldOr fields "end" 0 toWord?
    let children ← fieldOr fields "children" none <| toOption? fun value =>
      match nesting with
      | 0 => none
      | below + 1 => toList? (ofJson? below) value
    let attributes ← fieldOr fields "metadata" none (toOption? (Attributes.ofJson? nesting))
    let fieldName ← fieldOr fields "fieldName" none (toOption? toText?)
    some { kind, start, stop, children, attributes, fieldName }

/-- The reported children; null stands for an empty list. -/
def childList (r : ReportedNode) : List ReportedNode := r.children.getD []

mutual

/-- Number of nodes of the report. -/
def size : ReportedNode → Nat
  | ⟨_, _, _, children, _, _⟩ => optionSize children + 1

def optionSize : Option (List ReportedNode) → Nat
  | none => 0
  | some children => sizes children

def sizes : List ReportedNode → Nat
  | [] => 0
  | child :: rest => size child + sizes rest

end

theorem size_eq (r : ReportedNode) : r.size = sizes r.childList + 1 := by
  obtain ⟨_, _, _, children, _, _⟩ := r
  cases children <;> rfl

/-- The span counted from zero. Positions below the base become zero, and the end is never before
the start. -/
def span (r : ReportedNode) (base : Nat) : Span :=
  ⟨r.start - base, max (r.stop - base) (r.start - base)⟩

/-- The node with the given children. -/
def rebased (r : ReportedNode) (base : Nat) (children : List Node) : Node :=
  { kind := r.kind, span := r.span base, children
    attributes := r.attributes.getD ∅, fieldName := r.fieldName.filter (· ≠ "") }

/-- A report under conversion: the children converted so far, the last first, and those to come. -/
structure Opened where
  report : ReportedNode
  converted : List Node
  waiting : List ReportedNode

namespace Opened

def ofReport (r : ReportedNode) : Opened := ⟨r, [], r.childList⟩

def close (o : Opened) (base : Nat) : Node := o.report.rebased base o.converted.reverse

/-- What is left to do for reports that wait for each other. -/
def work : List Opened → Nat
  | [] => 0
  | o :: outer => 2 * sizes o.waiting + 1 + work outer

end Opened

/-- Converts the innermost of the open reports to the end, and then those around it. -/
def finish (base : Nat) (current : Opened) (outer : List Opened) : Node :=
  match _h : current.waiting with
  | child :: waiting => finish base (.ofReport child) ({ current with waiting } :: outer)
  | [] =>
    match outer with
    | [] => current.close base
    | parent :: outer =>
      finish base { parent with converted := current.close base :: parent.converted } outer
termination_by Opened.work (current :: outer)
decreasing_by
  · simp only [Opened.work, Opened.ofReport, _h, sizes, size_eq child]; omega
  · simp only [Opened.work]; omega

/-- The reported tree with its positions counted from zero. -/
def toNode (r : ReportedNode) (base : Nat) : Node := finish base (.ofReport r) []

end ReportedNode

end SyntaxOutline
