import Mathlib.Data.List.Basic
import SyntaxOutline.Proofs.Text.Numeral
import SyntaxOutline.Text.Blank

/-! # Parts of a text

A text that is divided at a separator has a first part that ends where the separator first occurs.
Cutting the blanks off a part leaves what stands between them. Digits and signs are not blank, so a
number is read off a trimmed part just when the part is a numeral with blanks around it. -/
namespace SyntaxOutline.Text

variable {text word blanks rest before after : List Char} {n : Nat} {c : Char}

theorem splitOn_cases (sep : Char) (text : List Char) :
    (sep ∉ text ∧ text.splitOn sep = [text]) ∨
      ∃ first rest, text = first ++ sep :: rest ∧ sep ∉ first ∧
        text.splitOn sep = first :: rest.splitOn sep := by
  by_cases hmem : sep ∈ text
  · obtain ⟨first, rest, htext, hfirst⟩ := List.eq_append_cons_of_mem hmem
    refine .inr ⟨first, rest, htext, hfirst, ?_⟩
    rw [htext, List.splitOn_append_cons_self_of_not_mem hfirst]
  · exact .inl ⟨hmem, List.splitOn_eq_singleton hmem⟩

/-- The first of several parts is followed by a separator. -/
theorem exists_eq_append_of_splitOn {sep : Char} {first second : List Char}
    {more : List (List Char)} (h : text.splitOn sep = first :: second :: more) :
    ∃ rest, text = first ++ sep :: rest ∧ sep ∉ first ∧ rest.splitOn sep = second :: more := by
  rcases splitOn_cases sep text with ⟨_, hsplit⟩ | ⟨start, rest, htext, hstart, hsplit⟩
  · rw [hsplit] at h
    cases h
  · obtain ⟨rfl, hrest⟩ := List.cons.inj (hsplit.symm.trans h)
    exact ⟨rest, htext, hstart, hrest⟩

theorem isBlank_of_isDigit (h : c.isDigit = true) : isBlank c = false := by
  have hbounds : 48 ≤ c.toNat ∧ c.toNat ≤ 57 := Char.isDigit_iff_toNat.1 h
  simp only [isBlank, blankRanges, List.any_cons, List.any_nil, Bool.or_false, Bool.or_eq_false_iff,
    Bool.and_eq_false_iff, decide_eq_false_iff_not]
  omega

theorem dropWhile_isBlank_append (hblanks : ∀ c ∈ blanks, isBlank c = true)
    (hrest : ∀ c ∈ rest.head?, isBlank c = false) : (blanks ++ rest).dropWhile isBlank = rest := by
  rw [List.dropWhile_append_of_pos hblanks]
  cases rest with
  | nil => rfl
  | cons first rest => rw [List.dropWhile_cons_of_neg (by simpa using hrest first rfl)]

theorem trim_append (hbefore : ∀ c ∈ before, isBlank c = true)
    (hafter : ∀ c ∈ after, isBlank c = true) (hne : word ≠ [])
    (hfirst : ∀ c ∈ word.head?, isBlank c = false)
    (hlast : ∀ c ∈ word.getLast?, isBlank c = false) : trim (before ++ word ++ after) = word := by
  have hleft : (before ++ (word ++ after)).dropWhile isBlank = word ++ after :=
    dropWhile_isBlank_append hbefore (by rwa [List.head?_append_of_ne_nil _ hne])
  have hright : (after.reverse ++ word.reverse).dropWhile isBlank = word.reverse :=
    dropWhile_isBlank_append (by simpa using hafter) (by rwa [List.head?_reverse])
  rw [trim, List.append_assoc, hleft, List.reverse_append, hright, List.reverse_reverse]

/-- What is cut off are blanks. -/
theorem exists_eq_append_trim (text : List Char) :
    ∃ before after, text = before ++ trim text ++ after ∧
      (∀ c ∈ before, isBlank c = true) ∧ ∀ c ∈ after, isBlank c = true := by
  have hblank : ∀ (text : List Char), ∀ c ∈ text.takeWhile isBlank, isBlank c = true :=
    fun text => List.all_eq_true.1 List.all_takeWhile
  refine ⟨text.takeWhile isBlank, ((text.dropWhile isBlank).reverse.takeWhile isBlank).reverse, ?_,
    hblank text, by simpa using hblank (text.dropWhile isBlank).reverse⟩
  rw [trim, List.append_assoc, ← List.reverse_append, List.takeWhile_append_dropWhile,
    List.reverse_reverse, List.takeWhile_append_dropWhile]

/-- Possibly a plus sign, and one or more digits with a value that is a word. -/
def IsWord (text : List Char) (n : Nat) : Prop :=
  ∃ digits, (text = digits ∨ text = '+' :: digits) ∧ digits ≠ [] ∧
    (∀ c ∈ digits, c.isDigit = true) ∧ Nat.ofDigitChars 10 digits 0 = n ∧ n < wordLimit

theorem readNatural_eq_some_iff :
    readNatural text = some n ↔
      text ≠ [] ∧ (∀ c ∈ text, c.isDigit = true) ∧ Nat.ofDigitChars 10 text 0 = n := by
  simp [readNatural, and_assoc]

theorem readWord_eq_some_iff : readWord text = some n ↔ IsWord text n := by
  unfold readWord
  split
  next digits =>
    dsimp only
    rw [Option.filter_eq_some_iff, readNatural_eq_some_iff, decide_eq_true_iff]
    constructor
    · rintro ⟨⟨hne, hdigits, hvalue⟩, hlt⟩
      exact ⟨digits, .inr rfl, hne, hdigits, hvalue, hlt⟩
    · rintro ⟨_, rfl | heq, hne, hdigits, hvalue, hlt⟩
      · exact absurd (hdigits '+' List.mem_cons_self) (by decide)
      · obtain rfl := List.cons_injective heq
        exact ⟨⟨hne, hdigits, hvalue⟩, hlt⟩
  next hunsigned =>
    dsimp only
    rw [Option.filter_eq_some_iff, readNatural_eq_some_iff, decide_eq_true_iff]
    constructor
    · rintro ⟨⟨hne, hdigits, hvalue⟩, hlt⟩
      exact ⟨text, .inl rfl, hne, hdigits, hvalue, hlt⟩
    · rintro ⟨digits, rfl | rfl, hne, hdigits, hvalue, hlt⟩
      · exact ⟨⟨hne, hdigits, hvalue⟩, hlt⟩
      · exact absurd rfl (hunsigned digits)

theorem isWord_decimal (h : n < wordLimit) : IsWord (Nat.toDigits 10 n) n :=
  readWord_eq_some_iff.1 (by simp [readWord_decimal, h])

theorem IsWord.ne_nil (h : IsWord text n) : text ≠ [] := by
  obtain ⟨digits, rfl | rfl, hne, _⟩ := h
  · exact hne
  · exact List.cons_ne_nil _ _

theorem IsWord.isBlank_eq_false (h : IsWord text n) (hc : c ∈ text) : isBlank c = false := by
  obtain ⟨digits, rfl | rfl, _, hdigits, _⟩ := h
  · exact isBlank_of_isDigit (hdigits c hc)
  · rcases List.mem_cons.1 hc with rfl | hc
    · decide
    · exact isBlank_of_isDigit (hdigits c hc)

/-- A numeral with blanks around it. -/
def IsPaddedWord (text : List Char) (n : Nat) : Prop :=
  ∃ before word after, text = before ++ word ++ after ∧ (∀ c ∈ before, isBlank c = true) ∧
    (∀ c ∈ after, isBlank c = true) ∧ IsWord word n

theorem readWord_trim_eq_some_iff : readWord (trim text) = some n ↔ IsPaddedWord text n := by
  rw [readWord_eq_some_iff]
  constructor
  · intro h
    obtain ⟨before, after, htext, hbefore, hafter⟩ := exists_eq_append_trim text
    exact ⟨before, trim text, after, htext, hbefore, hafter, h⟩
  · rintro ⟨before, word, after, rfl, hbefore, hafter, h⟩
    rw [trim_append hbefore hafter h.ne_nil
      (fun c hc => h.isBlank_eq_false (List.mem_of_mem_head? hc))
      (fun c hc => h.isBlank_eq_false (List.mem_of_mem_getLast? hc))]
    exact h

end SyntaxOutline.Text
