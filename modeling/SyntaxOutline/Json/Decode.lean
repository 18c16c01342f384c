import SyntaxOutline.Json.Text

/-! # Reading values out of JSON

Readers for texts, flags, numbers, lists and records. A record is an object with named fields, or an
array of the same fields in their declared order. Unknown names are passed over, but every name has
to be a text; a known name may stand only once. The readers of nested values are given how many
levels of arrays and objects they may still enter. -/
namespace SyntaxOutline.Json

/-- Levels of nesting that a stored value may have. -/
def nestingLimit : Nat := 127

def toText? : Json → Option String
  | .string text => text
  | _ => none

def toBool? : Json → Option Bool
  | .bool value => some value
  | _ => none

/-- A natural number below a bound, written without a sign, a fraction or an exponent. -/
def toNatural? (bound : Nat) : Json → Option Nat
  | .number (.whole false value) => if value < bound then some value else none
  | _ => none

def toWord? : Json → Option Nat := toNatural? Text.wordLimit

def toOption? {α : Type} (read : Json → Option α) : Json → Option (Option α)
  | .null => some none
  | value => (read value).map some

def toList? {α : Type} (read : Json → Option α) : Json → Option (List α)
  | .array items => items.mapM read
  | _ => none

/-- An object whose names are all texts. -/
def toFields? : Json → Option (List (String × Json))
  | .object fields => fields.mapM fun field => field.1.map fun name => (name, field.2)
  | _ => none

/-- The fields of a record with the given names, in declared order. -/
def toRecord? (names : List String) : Json → Option (List (String × Json))
  | .array items => if items.length ≤ names.length then some (names.zip items) else none
  | value => do
    let known := (← value.toFields?).filter fun field => names.contains field.1
    if (known.map (·.1)).Nodup then some known else none

def field? {α : Type} (fields : List (String × Json)) (name : String) (read : Json → Option α) :
    Option α := (fields.lookup name).bind read

/-- A field that may be missing. -/
def fieldOr {α : Type} (fields : List (String × Json)) (name : String) (missing : α)
    (read : Json → Option α) : Option α :=
  match fields.lookup name with
  | some value => read value
  | none => some missing

end SyntaxOutline.Json
