import SyntaxOutline.Json.Numeral

/-! # JSON values

A JSON value as its text has it: numbers as they are written, the fields of an object in their
order, repeated names included. A string or field name may hold escapes that do not pair up to
characters; its text is then `none`. -/
namespace SyntaxOutline

inductive Json where
  | null
  | bool (value : Bool)
  | number (value : Numeral)
  | string (text : Option String)
  | array (items : List Json)
  | object (fields : List (Option String × Json))
deriving BEq, Repr, Inhabited

namespace Json

mutual

/-- How deep arrays and objects nest in the value. -/
def depth : Json → Nat
  | .array items => depthItems items + 1
  | .object fields => depthFields fields + 1
  | _ => 0

def depthItems : List Json → Nat
  | [] => 0
  | item :: rest => max (depth item) (depthItems rest)

def depthFields : List (Option String × Json) → Nat
  | [] => 0
  | (_, value) :: rest => max (depth value) (depthFields rest)

end

def text (value : String) : Json := .string (some value)

def natural (value : Nat) : Json := .number (.whole false value)

/-- An object with the given field names, all of them proper texts. -/
def record (fields : List (String × Json)) : Json :=
  .object (fields.map fun field => (some field.1, field.2))

end Json

end SyntaxOutline
