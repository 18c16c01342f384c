import SyntaxOutline.Diagnostic
import SyntaxOutline.Json.Decode
import SyntaxOutline.LineTable
import SyntaxOutline.NodePath.Text
import SyntaxOutline.Settings
import SyntaxOutline.Span

/-! # Stored form of spans, positions, paths, diagnostics and settings

Each is a record with its fields in declared order, apart from a path, which is its written form.
Only settings have fields that may be missing; those then have their default. -/
namespace SyntaxOutline

open Json

namespace Span

def toJson (s : Span) : Json :=
  .record [("start", .natural s.start), ("end", .natural s.stop)]

def ofJson? : Nat → Json → Option Span
  | 0, _ => none
  | _ + 1, value => do
    let fields ← value.toRecord? ["start", "end"]
    some ⟨← field? fields "start" toWord?, ← field? fields "end" toWord?⟩

end Span

namespace Position

def toJson (p : Position) : Json :=
  .record [("line", .natural p.line), ("column", .natural p.column), ("offset", .natural p.offset)]

def ofJson? : Nat → Json → Option Position
  | 0, _ => none
  | _ + 1, value => do
    let fields ← value.toRecord? ["line", "column", "offset"]
    some ⟨← field? fields "line" toWord?, ← field? fields "column" toWord?,
      ← field? fields "offset" toWord?⟩

end Position

namespace NodePath

def toJson (p : NodePath) : Json := .text p.text

def ofJson? (value : Json) : Option NodePath := do
  match ofText (← value.toText?) with
  | .ok path => some path
  | .error _ => none

end NodePath

namespace Diagnostic

def toJson (d : Diagnostic) : Json :=
  .record [("message", .text d.message), ("line", .natural d.line), ("column", .natural d.column)]

def ofJson? : Nat → Json → Option Diagnostic
  | 0, _ => none
  | _ + 1, value => do
    let fields ← value.toRecord? ["message", "line", "column"]
    some ⟨← field? fields "message" toText?, ← field? fields "line" toWord?,
      ← field? fields "column" toWord?⟩

end Diagnostic

namespace Settings

/-- Depths are numbers of sixteen bits. -/
def depthBound : Nat := 65536

def toJson (s : Settings) : Json :=
  .record [("position_base", .natural s.positionBase),
    ("initial_expand_depth", .natural s.initialDepth), ("follow_cursor", .bool s.followCursor)]

def ofJson? : Nat → Json → Option Settings
  | 0, _ => none
  | _ + 1, value => do
    let fields ← value.toRecord? ["position_base", "initial_expand_depth", "follow_cursor"]
    let standard : Settings := {}
    some
      { positionBase := ← fieldOr fields "position_base" standard.positionBase toWord?
        initialDepth := ←
          fieldOr fields "initial_expand_depth" standard.initialDepth (toNatural? depthBound)
        followCursor := ← fieldOr fields "follow_cursor" standard.followCursor toBool? }

end Settings

end SyntaxOutline
