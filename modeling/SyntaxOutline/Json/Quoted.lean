/-! # Quoted strings of JSON texts

The characters between the quotes of a string are read as pieces: characters, and sixteen-bit code
units from `\u` escapes. Two units that form a surrogate pair give one character; a surrogate that
stands alone gives none, and the string then has no text. -/
namespace SyntaxOutline.Quoted

inductive Piece where
  | char (value : Char)
  | unit (value : Nat)
deriving DecidableEq, Repr

def isHighSurrogate (unit : Nat) : Bool := 0xd800 ≤ unit && unit < 0xdc00

def isLowSurrogate (unit : Nat) : Bool := 0xdc00 ≤ unit && unit < 0xe000

def ofSurrogates (high low : Nat) : Char :=
  Char.ofNat (0x10000 + (high - 0xd800) * 0x400 + (low - 0xdc00))

/-- Puts the characters of the pieces, given last piece first, in front of `text`. -/
def assemble : List Piece → List Char → Option (List Char)
  | [], text => some text
  | .char c :: rest, text => assemble rest (c :: text)
  | .unit low :: .unit high :: rest, text =>
    if isHighSurrogate high && isLowSurrogate low then assemble rest (ofSurrogates high low :: text)
    else if isHighSurrogate low || isLowSurrogate low then none
    else assemble (.unit high :: rest) (Char.ofNat low :: text)
  | .unit low :: rest, text =>
    if isHighSurrogate low || isLowSurrogate low then none
    else assemble rest (Char.ofNat low :: text)

/-- The character that a backslash and the given character stand for. -/
def unescape? : Char → Option Char
  | '"' => some '"'
  | '\\' => some '\\'
  | '/' => some '/'
  | 'b' => some '\x08'
  | 'f' => some '\x0c'
  | 'n' => some '\n'
  | 'r' => some '\r'
  | 't' => some '\t'
  | _ => none

def hexValue? (c : Char) : Option Nat :=
  if c.isDigit then some (c.toNat - '0'.toNat)
  else if 'a' ≤ c ∧ c ≤ 'f' then some (c.toNat - 'a'.toNat + 10)
  else if 'A' ≤ c ∧ c ≤ 'F' then some (c.toNat - 'A'.toNat + 10)
  else none

/-- A character as it stands between quotes: only the quote, the backslash and the characters below
the space are escaped. -/
def escape (c : Char) : List Char :=
  match c with
  | '"' => ['\\', '"']
  | '\\' => ['\\', '\\']
  | '\x08' => ['\\', 'b']
  | '\x0c' => ['\\', 'f']
  | '\n' => ['\\', 'n']
  | '\r' => ['\\', 'r']
  | '\t' => ['\\', 't']
  | _ =>
    if c < ' ' then
      ['\\', 'u', '0', '0', Nat.digitChar (c.toNat / 16), Nat.digitChar (c.toNat % 16)]
    else [c]

/-- A string in quotes; one without a text is written as a surrogate that stands alone. -/
def chars (text : Option String) : List Char :=
  match text with
  | some text => '"' :: (text.toList.flatMap escape ++ ['"'])
  | none => ['"', '\\', 'u', 'd', '8', '0', '0', '"']

end SyntaxOutline.Quoted
