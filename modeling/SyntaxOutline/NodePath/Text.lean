import SyntaxOutline.NodePath

/-! # Written form of paths

A path is written as the root's `0` and then one hyphen and decimal numeral for each step, so that
the second child of the third child of the root is `0-2-1`. Numerals have no leading zeros, which
makes the written form unique; they may be of any size. -/
namespace SyntaxOutline

/-- Why a text names no node. -/
inductive PathFault where
  | empty
  | notRooted (text : String)
  | invalidStep (text step : String)
deriving DecidableEq, Repr

namespace PathFault

def message : PathFault → String
  | empty => "node id is empty"
  | notRooted text => "node id must start at the root segment `0`, got `" ++ text ++ "`"
  | invalidStep text step =>
    "invalid node id segment `" ++ step ++ "` in `" ++ text ++ "`"

end PathFault

namespace NodePath

/-- The root's part and then one part for each step. -/
def parts (p : NodePath) : List (List Char) := ['0'] :: p.steps.map (Nat.toDigits 10)

def text (p : NodePath) : String := String.ofList (['-'].intercalate p.parts)

/-- Reads a written path; the first part that is no numeral is reported. -/
def ofText (text : String) : Except PathFault NodePath :=
  if text.isEmpty then .error .empty
  else
    match text.toList.splitOn '-' with
    | ['0'] :: rest =>
      match rest.find? fun part => !Text.isCanonical part with
      | some part => .error (.invalidStep text (String.ofList part))
      | none => .ok ⟨rest.map fun part => Nat.ofDigitChars 10 part 0⟩
    | _ => .error (.notRooted text)

instance : ToString NodePath := ⟨text⟩

end NodePath

end SyntaxOutline
