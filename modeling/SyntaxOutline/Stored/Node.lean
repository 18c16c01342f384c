import SyntaxOutline.Node
import SyntaxOutline.Stored.Attributes
import SyntaxOutline.Stored.Basic

/-! # Stored form of trees

A node is a record of its kind, range, children, metadata and field name. A missing field name is
not written, and children and metadata may be missing when read. -/
namespace SyntaxOutline.Node

open Json

variable (writeNumber : Binary64 → Json)

mutual

def toJson : Node → Json
  | ⟨kind, span, children, attributes, fieldName⟩ =>
    .record <|
      [("kind", .text kind), ("range", span.toJson), ("children", .array (allToJson children)),
        ("metadata", attributes.toJson writeNumber)] ++
      fieldName.toList.map fun name => ("field_name", .text name)

def allToJson : List Node → List Json
  | [] => []
  | n :: rest => toJson n :: allToJson rest

end

def fieldNames : List String := ["kind", "range", "children", "metadata", "field_name"]

def ofJson? : Nat → Json → Option Node
  | 0, _ => none
  | nesting + 1, value => do
    let fields ← value.toRecord? fieldNames
    let kind ← field? fields "kind" toText?
    let span ← field? fields "range" (Span.ofJson? nesting)
    let children ← fieldOr fields "children" [] fun value =>
      match nesting with
      | 0 => none
      | below + 1 => toList? (ofJson? below) value
    let attributes ← fieldOr fields "metadata" ∅ (Attributes.ofJson? nesting)
    let fieldName ← fieldOr fields "field_name" none (toOption? toText?)
    some { kind, span, children, attributes, fieldName }

end SyntaxOutline.Node
