import SyntaxOutline.Text.Numeral

/-! # Numbers of JSON texts

A number is kept as it is written: a whole number, or a decimal with the digits of a fraction and an
exponent. The sign is kept apart, so that a negative zero stays one. -/
namespace SyntaxOutline

inductive Numeral where
  | whole (negative : Bool) (value : Nat)
  | decimal (negative : Bool) (value : Nat) (fraction : List (Fin 10)) (exponent : Int)
deriving DecidableEq, Repr

namespace Numeral

/-- The digits after a decimal point, and what follows them. Without a point there are none. -/
def readFraction : List Char → Option (List (Fin 10) × List Char)
  | '.' :: rest =>
    let digits := rest.takeWhile Char.isDigit
    if digits.isEmpty then none
    else
      some (digits.map fun c => Fin.ofNat 10 (c.toNat - '0'.toNat), rest.dropWhile Char.isDigit)
  | rest => some ([], rest)

/-- An exponent that takes up all the characters; no characters are the exponent zero. -/
def readExponent : List Char → Option Int
  | [] => some 0
  | mark :: rest =>
    if mark = 'e' ∨ mark = 'E' then
      match rest with
      | '-' :: digits => (Text.readNatural digits).map fun n => -(n : Int)
      | '+' :: digits => (Text.readNatural digits).map Int.ofNat
      | digits => (Text.readNatural digits).map Int.ofNat
    else none

def readUnsigned (negative : Bool) (text : List Char) : Option Numeral :=
  let digits := text.takeWhile Char.isDigit
  let rest := text.dropWhile Char.isDigit
  let value := Nat.ofDigitChars 10 digits 0
  if !Text.isCanonical digits then none
  else if rest.isEmpty then some (.whole negative value)
  else do
    let (fraction, rest) ← readFraction rest
    let exponent ← readExponent rest
    some (.decimal negative value fraction exponent)

/-- Reads a number that takes up all the characters. -/
def ofChars? : List Char → Option Numeral
  | '-' :: rest => readUnsigned true rest
  | text => readUnsigned false text

def sign (negative : Bool) : List Char := if negative then ['-'] else []

def fractionChars : List (Fin 10) → List Char
  | [] => []
  | digits => '.' :: digits.map fun d => Nat.digitChar d.val

def chars : Numeral → List Char
  | whole negative value => sign negative ++ Nat.toDigits 10 value
  | decimal negative value fraction exponent =>
    sign negative ++ Nat.toDigits 10 value ++ fractionChars fraction ++
      'e' :: (sign (exponent < 0) ++ Nat.toDigits 10 exponent.natAbs)

end Numeral

end SyntaxOutline
