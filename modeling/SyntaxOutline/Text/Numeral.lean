/-! # Decimal numerals

Natural numbers written in decimal digits, and the bound that offsets, lines, columns and child
ordinals stay below. A numeral is read from a list of characters; `readNatural_toDigits` says that
the written form of a number reads back as that number. -/
namespace SyntaxOutline.Text

/-- Offsets, lines, columns and child ordinals are below this bound, the number of 64-bit words. -/
def wordLimit : Nat := 18446744073709551616

/-- The value of a nonempty run of ASCII digits. -/
def readNatural (digits : List Char) : Option Nat :=
  if !digits.isEmpty && digits.all Char.isDigit then some (Nat.ofDigitChars 10 digits 0) else none

/-- Whether the characters are a numeral without leading zeros. -/
def isCanonical (digits : List Char) : Bool :=
  !digits.isEmpty && digits.all Char.isDigit && (digits == ['0'] || digits.head? != some '0')

/-- A number below the word limit, with at most one plus sign in front of its digits. -/
def readWord (text : List Char) : Option Nat :=
  let digits := match text with
    | '+' :: rest => rest
    | _ => text
  (readNatural digits).filter (· < wordLimit)

theorem readNatural_toDigits (n : Nat) : readNatural (Nat.toDigits 10 n) = some n := by
  have hd : (Nat.toDigits 10 n).all Char.isDigit = true :=
    List.all_eq_true.2 fun c hc => Nat.isDigit_of_mem_toDigits (by decide) (by decide) hc
  simp [readNatural, hd, Nat.toDigits_ne_nil, Nat.ofDigitChars_ten_toDigits]

end SyntaxOutline.Text
