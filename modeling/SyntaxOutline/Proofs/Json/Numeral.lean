import SyntaxOutline.Json.Numeral
import SyntaxOutline.Proofs.Text.Numeral

/-! # Written numbers

A number reads back as it was written, sign, fraction and exponent included. -/
namespace SyntaxOutline.Numeral

theorem takeWhile_decimal (n : Nat) {rest : List Char} (h : rest.takeWhile Char.isDigit = []) :
    (Nat.toDigits 10 n ++ rest).takeWhile Char.isDigit = Nat.toDigits 10 n := by
  rw [List.takeWhile_append_of_pos fun _ hc => Text.isDigit_of_mem_decimal hc, h, List.append_nil]

theorem dropWhile_decimal (n : Nat) {rest : List Char} (h : rest.dropWhile Char.isDigit = rest) :
    (Nat.toDigits 10 n ++ rest).dropWhile Char.isDigit = rest := by
  rw [List.dropWhile_append_of_pos fun _ hc => Text.isDigit_of_mem_decimal hc, h]

theorem readUnsigned_whole (negative : Bool) (n : Nat) :
    readUnsigned negative (Nat.toDigits 10 n) = some (.whole negative n) := by
  have htake : (Nat.toDigits 10 n ++ []).takeWhile Char.isDigit = Nat.toDigits 10 n :=
    takeWhile_decimal n rfl
  have hdrop : (Nat.toDigits 10 n ++ []).dropWhile Char.isDigit = [] := dropWhile_decimal n rfl
  rw [List.append_nil] at htake hdrop
  simp [readUnsigned, htake, hdrop, Text.isCanonical_decimal, Nat.ofDigitChars_ten_toDigits]

theorem isDigit_digitChar (d : Fin 10) : (Nat.digitChar d.val).isDigit = true := by
  revert d; decide

theorem ofNat_digitChar (d : Fin 10) :
    Fin.ofNat 10 ((Nat.digitChar d.val).toNat - '0'.toNat) = d := by
  revert d; decide

/-- The exponent of a number, with its mark. -/
def exponentChars (exponent : Int) : List Char :=
  'e' :: (sign (exponent < 0) ++ Nat.toDigits 10 exponent.natAbs)

theorem readFraction_fractionChars (digits : List (Fin 10)) (exponent : Int) :
    readFraction (fractionChars digits ++ exponentChars exponent) =
      some (digits, exponentChars exponent) := by
  cases digits with
  | nil => rfl
  | cons d rest =>
    have hall : ∀ c ∈ (d :: rest).map fun d => Nat.digitChar d.val, c.isDigit = true := by
      intro c hc
      obtain ⟨d, _, rfl⟩ := List.mem_map.1 hc
      exact isDigit_digitChar d
    have htake : (((d :: rest).map fun d => Nat.digitChar d.val) ++
        exponentChars exponent).takeWhile Char.isDigit =
          (d :: rest).map fun d => Nat.digitChar d.val := by
      rw [List.takeWhile_append_of_pos hall]
      simp [exponentChars]
    have hdrop : (((d :: rest).map fun d => Nat.digitChar d.val) ++
        exponentChars exponent).dropWhile Char.isDigit = exponentChars exponent := by
      rw [List.dropWhile_append_of_pos hall]
      simp [exponentChars]
    have hread : ((d :: rest).map fun d => Nat.digitChar d.val).map
        (fun c => Fin.ofNat 10 (c.toNat - '0'.toNat)) = d :: rest := by
      rw [List.map_map]
      exact (List.map_congr_left fun d _ => ofNat_digitChar d).trans (List.map_id _)
    simp only [fractionChars, List.cons_append, readFraction, htake, hdrop, hread]
    simp

theorem isDigit_of_decimal_cons {n : Nat} {c : Char} {rest : List Char}
    (h : Nat.toDigits 10 n = c :: rest) : c.isDigit = true :=
  Text.isDigit_of_mem_decimal (h ▸ List.mem_cons_self)

theorem readExponent_exponentChars (exponent : Int) :
    readExponent (exponentChars exponent) = some exponent := by
  by_cases hneg : exponent < 0
  · have hread := Text.readNatural_toDigits exponent.natAbs
    have hvalue : -(exponent.natAbs : Int) = exponent := by omega
    simp only [exponentChars, hneg, decide_true, sign, ↓reduceIte, readExponent, true_or,
      List.cons_append, List.nil_append]
    rw [hread]
    exact congrArg some hvalue
  · have hread := Text.readNatural_toDigits exponent.natAbs
    have hvalue : Int.ofNat exponent.natAbs = exponent := by
      simp only [Int.ofNat_eq_natCast]
      omega
    simp only [exponentChars, hneg, decide_false, sign, Bool.false_eq_true, ↓reduceIte,
      readExponent, true_or, List.nil_append]
    split
    next digits heq => exact absurd (isDigit_of_decimal_cons heq) (by decide)
    next digits heq => exact absurd (isDigit_of_decimal_cons heq) (by decide)
    next => rw [hread, Option.map_some, hvalue]

theorem readUnsigned_decimal (negative : Bool) (n : Nat) (fraction : List (Fin 10))
    (exponent : Int) :
    readUnsigned negative
        (Nat.toDigits 10 n ++ (fractionChars fraction ++ exponentChars exponent)) =
      some (.decimal negative n fraction exponent) := by
  have htake : (fractionChars fraction ++ exponentChars exponent).takeWhile Char.isDigit = [] := by
    cases fraction <;> rfl
  have hdrop : (fractionChars fraction ++ exponentChars exponent).dropWhile Char.isDigit =
      fractionChars fraction ++ exponentChars exponent := by
    cases fraction <;> rfl
  have hrest : (fractionChars fraction ++ exponentChars exponent).isEmpty = false := by
    cases fraction <;> rfl
  simp [readUnsigned, takeWhile_decimal n htake, dropWhile_decimal n hdrop, hrest,
    Text.isCanonical_decimal, Nat.ofDigitChars_ten_toDigits, readFraction_fractionChars,
    readExponent_exponentChars]

theorem ofChars?_sign (negative : Bool) (n : Nat) (rest : List Char) :
    ofChars? (sign negative ++ (Nat.toDigits 10 n ++ rest)) =
      readUnsigned negative (Nat.toDigits 10 n ++ rest) := by
  cases negative with
  | true => rfl
  | false =>
    obtain ⟨first, more, heq⟩ := List.exists_cons_of_ne_nil (Nat.toDigits_ne_nil (b := 10) (n := n))
    have hfirst := isDigit_of_decimal_cons heq
    rw [sign, if_neg Bool.false_ne_true, List.nil_append, heq, List.cons_append]
    unfold ofChars?
    split
    next text htext =>
      obtain ⟨rfl, _⟩ := List.cons.inj htext
      exact absurd hfirst (by decide)
    next => rfl

theorem ofChars?_chars (value : Numeral) : ofChars? value.chars = some value := by
  cases value with
  | whole negative n =>
    have hsign := ofChars?_sign negative n []
    rw [List.append_nil] at hsign
    rw [chars, hsign, readUnsigned_whole]
  | decimal negative n fraction exponent =>
    have hchars : chars (.decimal negative n fraction exponent) =
        sign negative ++ (Nat.toDigits 10 n ++
          (fractionChars fraction ++ exponentChars exponent)) := by
      simp [chars, exponentChars]
    rw [hchars, ofChars?_sign, readUnsigned_decimal]

end SyntaxOutline.Numeral
