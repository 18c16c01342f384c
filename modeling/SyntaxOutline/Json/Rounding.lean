import SyntaxOutline.Binary64
import SyntaxOutline.Json.Numeral

/-! # Numerals as binary64 numbers

The significand of a numeral is a word. Digits before the point that no longer fit are dropped and
counted in the exponent. Digits after the point are taken up for as long as they fit, and the others
have no influence. -/
namespace SyntaxOutline.Numeral

/-- The leading digits of a number that fit a word, and how many were dropped, counted on. -/
def leadingDigits (value dropped : Nat) : Nat × Nat :=
  if value < Text.wordLimit then (value, dropped) else leadingDigits (value / 10) (dropped + 1)
termination_by value
decreasing_by simp only [Text.wordLimit] at *; omega

/-- Takes digits up at the end of a significand while it fits a word, and counts them on. -/
def appendDigits (significand taken : Nat) : List (Fin 10) → Nat × Nat
  | [] => (significand, taken)
  | digit :: rest =>
    if 10 * significand + digit < Text.wordLimit then
      appendDigits (10 * significand + digit) (taken + 1) rest
    else (significand, taken)

/-- None for a numeral that is too large for a binary64 number. -/
def toBinary64? : Numeral → Option Binary64
  | whole negative value =>
    let (significand, dropped) := leadingDigits value 0
    Binary64.ofScientific negative significand dropped
  | decimal negative value fraction exponent =>
    let (leading, dropped) := leadingDigits value 0
    let (significand, taken) := appendDigits leading 0 fraction
    Binary64.ofScientific negative significand (exponent + dropped - taken)

end SyntaxOutline.Numeral
