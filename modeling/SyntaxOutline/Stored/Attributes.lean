import SyntaxOutline.Attributes
import SyntaxOutline.Json.Decode
import SyntaxOutline.Json.Rounding

/-! # Stored form of attributes

Attributes are an object with their names in ascending order. Reading rounds numbers to binary64,
and the host says how a number is written. An object is no attribute value. -/
namespace SyntaxOutline

open Json

variable (writeNumber : Binary64 → Json)

namespace AttributeValue

mutual

def toJson : AttributeValue → Json
  | null => .null
  | flag value => .bool value
  | number value => writeNumber value
  | text value => .text value
  | list items => .array (itemsToJson items)

def itemsToJson : List AttributeValue → List Json
  | [] => []
  | item :: rest => toJson item :: itemsToJson rest

end

def ofJson? : Nat → Json → Option AttributeValue
  | _, .null => some null
  | _, .bool value => some (flag value)
  | _, .number value => value.toBinary64?.map number
  | _, .string value => value.map text
  | nesting + 1, .array items => (items.mapM (ofJson? nesting)).map list
  | _, _ => none

end AttributeValue

namespace Attributes

def toJson (a : Attributes) : Json :=
  .record (a.entries.map fun entry => (entry.1, entry.2.toJson writeNumber))

/-- Names may repeat, and the last value counts. -/
def ofJson? : Nat → Json → Option Attributes
  | 0, _ => none
  | nesting + 1, value => do
    let fields ← value.toFields?
    let entries ← fields.mapM fun field =>
      (AttributeValue.ofJson? nesting field.2).map fun value => (field.1, value)
    some (ofList entries)

end Attributes

end SyntaxOutline
