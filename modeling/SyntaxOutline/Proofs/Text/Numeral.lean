import SyntaxOutline.Text.Numeral

/-! # Written numerals

The decimal digits of a number are a numeral without leading zeros, and hold no other characters.
Conversely every numeral without leading zeros is written with the digits of its value, so that
different numerals have different values. -/
namespace SyntaxOutline.Text

theorem isDigit_of_mem_decimal {n : Nat} {c : Char} (h : c ∈ Nat.toDigits 10 n) :
    c.isDigit = true :=
  Nat.isDigit_of_mem_toDigits (by decide) (by decide) h

theorem all_isDigit_decimal (n : Nat) : (Nat.toDigits 10 n).all Char.isDigit = true :=
  List.all_eq_true.2 fun _ hc => isDigit_of_mem_decimal hc

theorem not_mem_decimal {c : Char} (h : c.isDigit = false) (n : Nat) : c ∉ Nat.toDigits 10 n := by
  intro hc
  rw [isDigit_of_mem_decimal hc] at h
  cases h

theorem digitChar_ne_zero {d : Nat} (hpos : 0 < d) (hlt : d < 10) : Nat.digitChar d ≠ '0' := by
  have hall : ∀ d < 10, 0 < d → Nat.digitChar d ≠ '0' := by decide
  exact hall d hlt hpos

theorem head?_decimal {n : Nat} (h : 0 < n) : (Nat.toDigits 10 n).head? ≠ some '0' := by
  induction n using Nat.strongRecOn with
  | ind n ih =>
    rw [Nat.toDigits_eq_if (by decide)]
    split
    next hlt => simpa using digitChar_ne_zero h hlt
    next hge =>
      have hrest := ih (n / 10) (by omega) (by omega)
      obtain ⟨first, rest, heq⟩ := List.exists_cons_of_ne_nil (Nat.toDigits_ne_nil (n := n / 10))
      rw [heq] at hrest ⊢
      simpa using hrest

theorem isCanonical_decimal (n : Nat) : isCanonical (Nat.toDigits 10 n) = true := by
  rcases Nat.eq_zero_or_pos n with rfl | hpos
  · decide
  · simp [isCanonical, all_isDigit_decimal, head?_decimal hpos]

/-- A numeral without leading zeros: a zero alone, or digits of which the first one is no zero. -/
inductive IsNumeral : List Char → Prop
  | zero : IsNumeral ['0']
  | digits {first : Char} {rest : List Char} (hfirst : first.isDigit = true) (hne : first ≠ '0')
      (hrest : ∀ c ∈ rest, c.isDigit = true) : IsNumeral (first :: rest)

theorem isCanonical_iff {digits : List Char} : isCanonical digits = true ↔ IsNumeral digits := by
  constructor
  · intro h
    cases digits with
    | nil => cases h
    | cons first rest =>
      simp only [isCanonical, List.isEmpty_cons, Bool.not_false, Bool.true_and, List.all_cons,
        Bool.and_eq_true, List.all_eq_true, Bool.or_eq_true, beq_iff_eq, List.head?_cons,
        bne_iff_ne, ne_eq, Option.some.injEq] at h
      obtain ⟨⟨hfirst, hrest⟩, hzero | hne⟩ := h
      · rw [hzero]
        exact .zero
      · exact .digits hfirst hne hrest
  · intro h
    cases h with
    | zero => rfl
    | digits hfirst hne hrest => simp_all [isCanonical]

theorem isNumeral_decimal (n : Nat) : IsNumeral (Nat.toDigits 10 n) :=
  isCanonical_iff.1 (isCanonical_decimal n)

theorem digit_lt_ten {c : Char} (h : c.isDigit = true) : c.toNat - '0'.toNat < 10 := by
  have hbounds : 48 ≤ c.toNat ∧ c.toNat ≤ 57 := Char.isDigit_iff_toNat.1 h
  have hzero : '0'.toNat = 48 := rfl
  omega

theorem digitChar_of_isDigit {c : Char} (h : c.isDigit = true) :
    Nat.digitChar (c.toNat - '0'.toNat) = c := by
  have hbounds : 48 ≤ c.toNat ∧ c.toNat ≤ 57 := Char.isDigit_iff_toNat.1 h
  have hzero : '0'.toNat = 48 := rfl
  apply Char.toNat_inj.1
  rw [Nat.toNat_digitChar_of_lt_ten (digit_lt_ten h)]
  omega

/-- Digits that follow a number other than zero are appended to its own digits. -/
theorem toDigits_ofDigitChars_of_pos {digits : List Char} (h : ∀ c ∈ digits, c.isDigit = true)
    {n : Nat} (hn : 0 < n) :
    Nat.toDigits 10 (Nat.ofDigitChars 10 digits n) = Nat.toDigits 10 n ++ digits := by
  induction digits generalizing n with
  | nil => simp
  | cons c rest ih =>
    obtain ⟨hc, hrest⟩ := List.forall_mem_cons.1 h
    have hlt : c.toNat - '0'.toNat < 10 := digit_lt_ten hc
    rw [Nat.ofDigitChars_cons, ih hrest (by omega),
      ← Nat.toDigits_append_toDigits (by decide) hn hlt, Nat.toDigits_of_lt_base hlt,
      digitChar_of_isDigit hc]
    simp

/-- A numeral without leading zeros is what its value is written as. -/
theorem toDigits_ofDigitChars {digits : List Char} (h : IsNumeral digits) :
    Nat.toDigits 10 (Nat.ofDigitChars 10 digits 0) = digits := by
  cases h with
  | zero => rfl
  | @digits first rest hfirst hne hrest =>
    have hchar := digitChar_of_isDigit hfirst
    have hlt : first.toNat - '0'.toNat < 10 := digit_lt_ten hfirst
    have hpos : 0 < first.toNat - '0'.toNat := by
      apply Nat.pos_of_ne_zero
      intro hzero
      rw [hzero] at hchar
      exact hne hchar.symm
    rw [Nat.ofDigitChars_cons, Nat.mul_zero, Nat.zero_add,
      toDigits_ofDigitChars_of_pos hrest hpos, Nat.toDigits_of_lt_base hlt, hchar]
    rfl

/-- A numeral is read as a word if its value is one. -/
theorem readWord_decimal (n : Nat) :
    readWord (Nat.toDigits 10 n) = (some n).filter (· < wordLimit) := by
  unfold readWord
  split
  next digits heq =>
    have hplus : '+' ∈ Nat.toDigits 10 n := heq ▸ List.mem_cons_self
    exact absurd hplus (not_mem_decimal (by decide) n)
  next =>
    dsimp only
    rw [readNatural_toDigits]

end SyntaxOutline.Text
