import SyntaxOutline.Json.Token
import SyntaxOutline.Proofs.Json.Numeral

/-! # Scanning written tokens

Tokens that are written one after the other are found again by the scanner, as long as no two words
stand side by side. -/
namespace SyntaxOutline

namespace Quoted

theorem hexValue?_digitChar {d : Nat} (h : d < 16) : hexValue? (Nat.digitChar d) = some d := by
  revert d; decide

/-- What the scanner makes of the written form of a character. -/
def piece (c : Char) : Piece :=
  if c = '\x08' ∨ c = '\x0c' ∨ c = '\n' ∨ c = '\r' ∨ c = '\t' then .char c
  else if c < ' ' then .unit c.toNat
  else .char c

theorem assemble_unit {n : Nat} (h : n < 0xd800) (rest : List Piece) (text : List Char) :
    assemble (.unit n :: rest) text = assemble rest (Char.ofNat n :: text) := by
  have hhigh : isHighSurrogate n = false := by
    simp only [isHighSurrogate, Bool.and_eq_false_iff, decide_eq_false_iff_not]
    omega
  have hlow : isLowSurrogate n = false := by
    simp only [isLowSurrogate, Bool.and_eq_false_iff, decide_eq_false_iff_not]
    omega
  cases rest with
  | nil => simp [assemble, hhigh, hlow]
  | cons first rest => cases first <;> simp [assemble, hhigh, hlow]

theorem toNat_lt_of_lt_space {c : Char} (h : c < ' ') : c.toNat < 32 := h

theorem assemble_piece (c : Char) (rest : List Piece) (text : List Char) :
    assemble (piece c :: rest) text = assemble rest (c :: text) := by
  unfold piece
  split
  · rfl
  · split
    next hcontrol =>
      have hlt := toNat_lt_of_lt_space hcontrol
      rw [assemble_unit (by omega), Char.ofNat_toNat]
    next => rfl

theorem assemble_pieces (text : List Char) (seen : List Piece) (rest : List Char) :
    assemble ((text.map piece).reverse ++ seen) rest = assemble seen (text ++ rest) := by
  induction text generalizing seen with
  | nil => rfl
  | cons c text ih =>
    rw [List.map_cons, List.reverse_cons, List.append_assoc, List.singleton_append, ih,
      assemble_piece, List.cons_append]

end Quoted

namespace Json

namespace Scanner

/-- The tokens that the scanner ends with, from a state of it and the characters to come. -/
def scanFrom (s : Scanner) (text : List Char) : Option (List Token) :=
  (text.foldlM step s).bind finish

theorem scanFrom_cons (s : Scanner) (c : Char) (rest : List Char) :
    s.scanFrom (c :: rest) = (s.step c).bind fun s' => s'.scanFrom rest := by
  rw [scanFrom, List.foldlM_cons]
  cases s.step c <;> rfl

theorem scanFrom_of_step {s t : Scanner} {c : Char} (h : s.step c = some t) (rest : List Char) :
    s.scanFrom (c :: rest) = t.scanFrom rest := by
  rw [scanFrom_cons, h, Option.bind_some]

/-- A character below the space that has no short form takes six characters. -/
theorem scanFrom_control {c : Char} (h : c < ' ') (found : List Token)
    (seen : List Quoted.Piece) (rest : List Char) :
    scanFrom ⟨found, .quoted seen⟩ ('\\' :: 'u' :: '0' :: '0' :: Nat.digitChar (c.toNat / 16) ::
        Nat.digitChar (c.toNat % 16) :: rest) =
      scanFrom ⟨found, .quoted (.unit c.toNat :: seen)⟩ rest := by
  have hlt := Quoted.toNat_lt_of_lt_space h
  have hhigh := Quoted.hexValue?_digitChar (d := c.toNat / 16) (by omega)
  have hlow := Quoted.hexValue?_digitChar (d := c.toNat % 16) (by omega)
  have hzero : Quoted.hexValue? '0' = some 0 := rfl
  have hvalue : 16 * (c.toNat / 16) + c.toNat % 16 = c.toNat := by omega
  rw [scanFrom_of_step (t := ⟨found, .escape seen⟩) (by simp [step]),
    scanFrom_of_step (t := ⟨found, .unit seen 3 0⟩) (by simp [step]),
    scanFrom_of_step (t := ⟨found, .unit seen 2 0⟩) (by simp [step, hzero]),
    scanFrom_of_step (t := ⟨found, .unit seen 1 0⟩) (by simp [step, hzero]),
    scanFrom_of_step (t := ⟨found, .unit seen 0 (c.toNat / 16)⟩) (by simp [step, hhigh]),
    scanFrom_of_step (t := ⟨found, .quoted (.unit c.toNat :: seen)⟩)
      (by simp [step, hlow, hvalue])]

theorem scanFrom_short {mark value : Char} (h : Quoted.unescape? mark = some value)
    (found : List Token) (seen : List Quoted.Piece) (rest : List Char) :
    scanFrom ⟨found, .quoted seen⟩ ('\\' :: mark :: rest) =
      scanFrom ⟨found, .quoted (.char value :: seen)⟩ rest := by
  have hmark : mark ≠ 'u' := by
    intro heq
    rw [heq] at h
    cases h
  rw [scanFrom_of_step (t := ⟨found, .escape seen⟩) (by simp [step]),
    scanFrom_of_step (t := ⟨found, .quoted (.char value :: seen)⟩) (by simp [step, hmark, h])]

theorem scanFrom_plain {c : Char} (hquote : c ≠ '"') (hslash : c ≠ '\\') (hspace : ¬ c < ' ')
    (found : List Token) (seen : List Quoted.Piece) (rest : List Char) :
    scanFrom ⟨found, .quoted seen⟩ (c :: rest) =
      scanFrom ⟨found, .quoted (.char c :: seen)⟩ rest := by
  apply scanFrom_of_step
  simp [step, hquote, hslash, hspace]

theorem scanFrom_escape (c : Char) (found : List Token) (seen : List Quoted.Piece)
    (rest : List Char) :
    scanFrom ⟨found, .quoted seen⟩ (Quoted.escape c ++ rest) =
      scanFrom ⟨found, .quoted (Quoted.piece c :: seen)⟩ rest := by
  unfold Quoted.escape
  split
  next => exact scanFrom_short rfl found seen rest
  next => exact scanFrom_short rfl found seen rest
  next => exact scanFrom_short rfl found seen rest
  next => exact scanFrom_short rfl found seen rest
  next => exact scanFrom_short rfl found seen rest
  next => exact scanFrom_short rfl found seen rest
  next => exact scanFrom_short rfl found seen rest
  next hquote hslash hback hfeed hline hreturn htab =>
    have hnamed : ¬ (c = '\x08' ∨ c = '\x0c' ∨ c = '\n' ∨ c = '\r' ∨ c = '\t') := by
      rintro (h | h | h | h | h)
      · exact hback h
      · exact hfeed h
      · exact hline h
      · exact hreturn h
      · exact htab h
    rw [Quoted.piece, if_neg hnamed]
    by_cases hcontrol : c < ' '
    · rw [if_pos hcontrol, if_pos hcontrol]
      exact scanFrom_control hcontrol found seen rest
    · rw [if_neg hcontrol, if_neg hcontrol]
      exact scanFrom_plain hquote hslash hcontrol found seen rest

theorem scanFrom_escaped (text : List Char) (found : List Token) (seen : List Quoted.Piece)
    (rest : List Char) :
    scanFrom ⟨found, .quoted seen⟩ (text.flatMap Quoted.escape ++ rest) =
      scanFrom ⟨found, .quoted ((text.map Quoted.piece).reverse ++ seen)⟩ rest := by
  induction text generalizing seen with
  | nil => rfl
  | cons c text ih =>
    rw [List.flatMap_cons, List.append_assoc, scanFrom_escape, ih, List.map_cons,
      List.reverse_cons, List.append_assoc, List.singleton_append]

theorem scanFrom_string (text : Option String) (found : List Token) (rest : List Char) :
    scanFrom ⟨found, .gap⟩ (Quoted.chars text ++ rest) =
      scanFrom ⟨.string text :: found, .gap⟩ rest := by
  cases text with
  | none => rfl
  | some text =>
    have hread : (Quoted.assemble ((text.toList.map Quoted.piece).reverse ++ []) []).map
        String.ofList = some text := by
      rw [Quoted.assemble_pieces]
      simp [Quoted.assemble]
    have hopen : step ⟨found, .gap⟩ '"' = some ⟨found, .quoted []⟩ := rfl
    rw [Quoted.chars, List.cons_append, scanFrom_of_step hopen, List.append_assoc,
      scanFrom_escaped, List.singleton_append]
    apply scanFrom_of_step
    simp only [step, beq_self_eq_true, ↓reduceIte, hread]

end Scanner

/-- The values that are written as one word. -/
def IsWord : Json → Prop
  | .null => True
  | .bool _ => True
  | .number _ => True
  | _ => False

namespace Token

theorem word?_number (value : Numeral) : word? value.chars = some (.word (.number value)) := by
  have hread := Numeral.ofChars?_chars value
  unfold word?
  split
  next h =>
    rw [h] at hread
    cases hread
  next h =>
    rw [h] at hread
    cases hread
  next h =>
    rw [h] at hread
    cases hread
  next => rw [hread, Option.map_some]

theorem word?_wordChars {value : Json} (h : IsWord value) :
    word? (wordChars value) = some (.word value) := by
  cases value with
  | null => rfl
  | bool value => cases value <;> rfl
  | number value => exact word?_number value
  | string _ => cases h
  | array _ => cases h
  | object _ => cases h

end Token

namespace Scanner

theorem endsWord_digit {c : Char} (h : c.isDigit = true) : endsWord c = false := by
  have hne : ∀ d : Char, d.isDigit = false → c ≠ d := by
    intro d hd heq
    rw [heq, hd] at h
    cases h
  have hmark : Token.mark? c = none := by
    unfold Token.mark?
    split <;> first | rfl | exact absurd h (by decide)
  simp [endsWord, isSpace, hmark, hne]

theorem endsWord_of_mem_sign {negative : Bool} {c : Char} (h : c ∈ Numeral.sign negative) :
    endsWord c = false := by
  cases negative with
  | false => cases h
  | true =>
    obtain rfl := List.mem_singleton.1 h
    rfl

theorem endsWord_of_mem_fraction {fraction : List (Fin 10)} {c : Char}
    (h : c ∈ Numeral.fractionChars fraction) : endsWord c = false := by
  cases fraction with
  | nil => cases h
  | cons d rest =>
    rcases List.mem_cons.1 h with rfl | h
    · rfl
    · obtain ⟨d, _, rfl⟩ := List.mem_map.1 h
      exact endsWord_digit (Numeral.isDigit_digitChar d)

theorem endsWord_of_mem_number {value : Numeral} {c : Char} (h : c ∈ value.chars) :
    endsWord c = false := by
  cases value with
  | whole negative n =>
    rcases List.mem_append.1 h with h | h
    · exact endsWord_of_mem_sign h
    · exact endsWord_digit (Text.isDigit_of_mem_decimal h)
  | decimal negative n fraction exponent =>
    simp only [Numeral.chars, List.mem_append, List.mem_cons] at h
    rcases h with ((h | h) | h) | rfl | h | h
    · exact endsWord_of_mem_sign h
    · exact endsWord_digit (Text.isDigit_of_mem_decimal h)
    · exact endsWord_of_mem_fraction h
    · rfl
    · exact endsWord_of_mem_sign h
    · exact endsWord_digit (Text.isDigit_of_mem_decimal h)

theorem endsWord_of_mem_wordChars {value : Json} {c : Char} (h : c ∈ Token.wordChars value) :
    endsWord c = false := by
  have hall : (Token.wordChars value).all (fun c => !endsWord c) = true := by
    cases value with
    | number value =>
      apply List.all_eq_true.2
      intro c hc
      simp [endsWord_of_mem_number hc]
    | bool value => cases value <;> rfl
    | _ => rfl
  simpa using List.all_eq_true.1 hall c h

theorem step_gap_word {c : Char} (h : endsWord c = false) (found : List Token) :
    step ⟨found, .gap⟩ c = some ⟨found, .word [c]⟩ := by
  simp only [endsWord, Bool.or_eq_false_iff, Option.isSome_eq_false_iff, Option.isNone_iff_eq_none]
    at h
  simp [step, start, h]

/-- The characters of a word, from its second one on. -/
theorem scanFrom_word_append {text : List Char} (h : ∀ c ∈ text, endsWord c = false)
    (found : List Token) (seen rest : List Char) :
    scanFrom ⟨found, .word seen⟩ (text ++ rest) =
      scanFrom ⟨found, .word (text.reverse ++ seen)⟩ rest := by
  induction text generalizing seen with
  | nil => rfl
  | cons c text ih =>
    have hstep : step ⟨found, .word seen⟩ c = some ⟨found, .word (c :: seen)⟩ := by
      simp [step, h c List.mem_cons_self]
    rw [List.cons_append, scanFrom_of_step hstep, ih fun c hc => h c (List.mem_cons_of_mem _ hc),
      List.reverse_cons, List.append_assoc, List.singleton_append]

/-- The word is found when the next character ends it, or the text does. -/
theorem scanFrom_word_end {value : Json} (hword : IsWord value) {rest : List Char}
    (hrest : ∀ c ∈ rest.head?, endsWord c = true) (found : List Token) :
    scanFrom ⟨found, .word (Token.wordChars value).reverse⟩ rest =
      scanFrom ⟨.word value :: found, .gap⟩ rest := by
  have hread := Token.word?_wordChars hword
  cases rest with
  | nil => simp [scanFrom, finish, hread]
  | cons c rest =>
    have hends : endsWord c = true := hrest c rfl
    rw [scanFrom_cons, scanFrom_cons]
    simp [step, hends, hread]

theorem wordChars_ne_nil {value : Json} (h : IsWord value) : Token.wordChars value ≠ [] := by
  intro hnil
  have hread := Token.word?_wordChars h
  rw [hnil] at hread
  cases hread

theorem scanFrom_word {value : Json} (hword : IsWord value) {rest : List Char}
    (hrest : ∀ c ∈ rest.head?, endsWord c = true) (found : List Token) :
    scanFrom ⟨found, .gap⟩ (Token.wordChars value ++ rest) =
      scanFrom ⟨.word value :: found, .gap⟩ rest := by
  obtain ⟨first, more, heq⟩ := List.exists_cons_of_ne_nil (wordChars_ne_nil hword)
  have hmem : ∀ c ∈ first :: more, endsWord c = false := by
    intro c hc
    rw [← heq] at hc
    exact endsWord_of_mem_wordChars hc
  rw [← scanFrom_word_end hword hrest, heq, List.cons_append,
    scanFrom_of_step (step_gap_word (hmem first List.mem_cons_self) found),
    scanFrom_word_append fun c hc => hmem c (List.mem_cons_of_mem _ hc), List.reverse_cons]

end Scanner

namespace Token

/-- No word stands at the front, so another word may be written before it. -/
def Apart : List Token → Prop
  | .word _ :: _ => False
  | _ => True

/-- The tokens can be told from each other when they are written without blanks. -/
def Separated : List Token → Prop
  | [] => True
  | .word value :: rest => IsWord value ∧ Apart rest ∧ Separated rest
  | _ :: rest => Separated rest

theorem Apart.endsWord {tokens : List Token} (h : Apart tokens) :
    ∀ c ∈ (tokens.flatMap chars).head?, Scanner.endsWord c = true := by
  intro c hc
  cases tokens with
  | nil => cases hc
  | cons token rest =>
    cases token with
    | word value => exact h.elim
    | string text =>
      cases text with
      | none =>
        obtain rfl := Option.some.inj hc
        rfl
      | some text =>
        obtain rfl := Option.some.inj hc
        rfl
    | openArray => obtain rfl := Option.some.inj hc; rfl
    | closeArray => obtain rfl := Option.some.inj hc; rfl
    | openObject => obtain rfl := Option.some.inj hc; rfl
    | closeObject => obtain rfl := Option.some.inj hc; rfl
    | comma => obtain rfl := Option.some.inj hc; rfl
    | colon => obtain rfl := Option.some.inj hc; rfl

end Token

theorem scanFrom_tokens {tokens : List Token} (h : Token.Separated tokens) (found : List Token) :
    Scanner.scanFrom ⟨found, .gap⟩ (tokens.flatMap Token.chars) =
      some (found.reverse ++ tokens) := by
  induction tokens generalizing found with
  | nil => simp [Scanner.scanFrom, Scanner.finish]
  | cons token rest ih =>
    have hnext : ∀ token, Token.Separated rest →
        Scanner.scanFrom ⟨token :: found, .gap⟩ (rest.flatMap Token.chars) =
          some (found.reverse ++ token :: rest) := by
      intro token hrest
      rw [ih hrest, List.reverse_cons, List.append_assoc, List.singleton_append]
    rw [List.flatMap_cons]
    cases token with
    | word value =>
      obtain ⟨hword, hapart, hrest⟩ := h
      rw [Token.chars, Scanner.scanFrom_word hword hapart.endsWord, hnext _ hrest]
    | string text => rw [Token.chars, Scanner.scanFrom_string, hnext _ h]
    | openArray => exact (Scanner.scanFrom_of_step rfl _).trans (hnext _ h)
    | closeArray => exact (Scanner.scanFrom_of_step rfl _).trans (hnext _ h)
    | openObject => exact (Scanner.scanFrom_of_step rfl _).trans (hnext _ h)
    | closeObject => exact (Scanner.scanFrom_of_step rfl _).trans (hnext _ h)
    | comma => exact (Scanner.scanFrom_of_step rfl _).trans (hnext _ h)
    | colon => exact (Scanner.scanFrom_of_step rfl _).trans (hnext _ h)

theorem scan_chars {tokens : List Token} (h : Token.Separated tokens) :
    scan (tokens.flatMap Token.chars) = some tokens :=
  scanFrom_tokens h []

end Json

end SyntaxOutline
