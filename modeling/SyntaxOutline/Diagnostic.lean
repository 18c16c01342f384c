import SyntaxOutline.Text.Blank
import SyntaxOutline.Text.Numeral

/-! # Diagnostics of the parser

A parser's message may start with a file name, a line and a column, each followed by a colon. The
two numbers may have blanks around them. A diagnostic holds the message whole, and line and column
zero where the message has no such start. -/
namespace SyntaxOutline

structure Diagnostic where
  message : String
  line : Nat
  column : Nat
deriving DecidableEq, Repr

namespace Diagnostic

def location? (message : String) : Option (Nat × Nat) :=
  match message.toList.splitOn ':' with
  | _ :: line :: column :: _ :: _ => do
    let line ← Text.readWord (Text.trim line)
    let column ← Text.readWord (Text.trim column)
    some (line, column)
  | _ => none

def ofMessage (message : String) : Diagnostic :=
  let (line, column) := (location? message).getD (0, 0)
  { message, line, column }

def hasLocation (d : Diagnostic) : Bool := 0 < d.line

end Diagnostic

/-- Why a parse gave no tree. -/
inductive Failure where
  | rejected (diagnostic : Diagnostic)
  | missingTree
  | malformed (detail : String)
deriving DecidableEq, Repr

namespace Failure

def message : Failure → String
  | rejected diagnostic => "parse error: " ++ diagnostic.message
  | missingTree => "no AST returned"
  | malformed detail => "malformed parser reply: " ++ detail

/-- The parser's own diagnostic, if it rejected the source. -/
def rejection? : Failure → Option Diagnostic
  | rejected diagnostic => some diagnostic
  | _ => none

/-- What a failure is reported as: the parser's diagnostic, or one made of the message. -/
def diagnostic : Failure → Diagnostic
  | rejected diagnostic => diagnostic
  | failure => Diagnostic.ofMessage failure.message

end Failure

end SyntaxOutline
