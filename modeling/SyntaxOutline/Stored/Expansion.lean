import SyntaxOutline.Expansion
import SyntaxOutline.Stored.Basic

/-! # Stored form of expansions

A record with the list of expanded paths, in the order of their written forms. -/
namespace SyntaxOutline.Expansion

open Json

/-- The written forms of the paths, in the order of texts. -/
def texts (e : Expansion) : List String := (e.paths.map (·.text)).mergeSort

def toJson (e : Expansion) : Json := .record [("expanded", .array (e.texts.map .text))]

def ofJson? : Nat → Json → Option Expansion
  | _ + 2, value => do
    let fields ← value.toRecord? ["expanded"]
    let paths ← field? fields "expanded" (toList? NodePath.ofJson?)
    some (ofList paths)
  | _, _ => none

end SyntaxOutline.Expansion
