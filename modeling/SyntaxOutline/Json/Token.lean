import SyntaxOutline.Json
import SyntaxOutline.Json.Quoted

/-! # Tokens of JSON texts

A JSON text is a sequence of marks, strings and words, where a word is a number or one of the three
names. Blanks may stand between tokens, and nothing else may. -/
namespace SyntaxOutline.Json

inductive Token where
  | openArray
  | closeArray
  | openObject
  | closeObject
  | comma
  | colon
  | string (text : Option String)
  | word (value : Json)
deriving BEq, Repr

namespace Token

def mark? : Char → Option Token
  | '[' => some openArray
  | ']' => some closeArray
  | '\x7b' => some openObject
  | '\x7d' => some closeObject
  | ',' => some comma
  | ':' => some colon
  | _ => none

def word? (text : List Char) : Option Token :=
  match text with
  | ['n', 'u', 'l', 'l'] => some (word .null)
  | ['t', 'r', 'u', 'e'] => some (word (.bool true))
  | ['f', 'a', 'l', 's', 'e'] => some (word (.bool false))
  | _ => (Numeral.ofChars? text).map fun value => word (.number value)

def wordChars : Json → List Char
  | .null => ['n', 'u', 'l', 'l']
  | .bool true => ['t', 'r', 'u', 'e']
  | .bool false => ['f', 'a', 'l', 's', 'e']
  | .number value => value.chars
  | _ => []

def chars : Token → List Char
  | openArray => ['[']
  | closeArray => [']']
  | openObject => ['\x7b']
  | closeObject => ['\x7d']
  | comma => [',']
  | colon => [':']
  | string text => Quoted.chars text
  | word value => wordChars value

end Token

/-- What the scanner is in the middle of, with what it has read of it, the last first. -/
inductive Scanning where
  | gap
  | word (seen : List Char)
  | quoted (seen : List Quoted.Piece)
  | escape (seen : List Quoted.Piece)
  | unit (seen : List Quoted.Piece) (digitsLeft : Nat) (value : Nat)
deriving DecidableEq, Repr

structure Scanner where
  /-- The tokens found, the last first. -/
  found : List Token
  inside : Scanning

namespace Scanner

def isSpace (c : Char) : Bool := c == ' ' || c == '\t' || c == '\n' || c == '\r'

def endsWord (c : Char) : Bool := isSpace c || c == '"' || (Token.mark? c).isSome

/-- Takes a character that stands between tokens. -/
def start (found : List Token) (c : Char) : Scanner :=
  if isSpace c then ⟨found, .gap⟩
  else if c == '"' then ⟨found, .quoted []⟩
  else
    match Token.mark? c with
    | some token => ⟨token :: found, .gap⟩
    | none => ⟨found, .word [c]⟩

def step (s : Scanner) (c : Char) : Option Scanner :=
  match s.inside with
  | .gap => some (start s.found c)
  | .word seen =>
    if endsWord c then (Token.word? seen.reverse).map fun token => start (token :: s.found) c
    else some ⟨s.found, .word (c :: seen)⟩
  | .quoted seen =>
    if c == '"' then
      some ⟨.string ((Quoted.assemble seen []).map String.ofList) :: s.found, .gap⟩
    else if c == '\\' then some ⟨s.found, .escape seen⟩
    else if c < ' ' then none
    else some ⟨s.found, .quoted (.char c :: seen)⟩
  | .escape seen =>
    if c == 'u' then some ⟨s.found, .unit seen 3 0⟩
    else (Quoted.unescape? c).map fun value => ⟨s.found, .quoted (.char value :: seen)⟩
  | .unit seen digitsLeft value =>
    (Quoted.hexValue? c).map fun digit =>
      match digitsLeft with
      | 0 => ⟨s.found, .quoted (.unit (16 * value + digit) :: seen)⟩
      | left + 1 => ⟨s.found, .unit seen left (16 * value + digit)⟩

def finish (s : Scanner) : Option (List Token) :=
  match s.inside with
  | .gap => some s.found.reverse
  | .word seen => (Token.word? seen.reverse).map fun token => (token :: s.found).reverse
  | _ => none

end Scanner

/-- The tokens of a text, if it has no others. -/
def scan (text : List Char) : Option (List Token) :=
  (text.foldlM Scanner.step ⟨[], .gap⟩).bind Scanner.finish

end SyntaxOutline.Json
