import SyntaxOutline.Diagnostic
import SyntaxOutline.Proofs.Text.Parts

/-! # Locations in messages

A location is read off the first three parts of a message, and only if there is a fourth one. So
colons in the text that follows do no harm, and a message about a place of a file is read back. The
two numbers are read on their own, and one of them may be zero where the other is not. Only then is
a location neither complete nor absent. -/
namespace SyntaxOutline.Diagnostic

open Text

variable {message : String} {line column : Nat}

/-- The message starts with a file name, a line and a column, each of them followed by a colon. -/
def Locates (message : String) (line column : Nat) : Prop :=
  ∃ file lineText columnText rest : List Char,
    message.toList = file ++ ':' :: (lineText ++ ':' :: (columnText ++ ':' :: rest)) ∧
      ':' ∉ file ∧ ':' ∉ lineText ∧ ':' ∉ columnText ∧
      IsPaddedWord lineText line ∧ IsPaddedWord columnText column

theorem location?_eq_some_iff :
    location? message = some (line, column) ↔ Locates message line column := by
  constructor
  · intro h
    unfold location? at h
    split at h
    next file lineText columnText last more hsplit =>
      obtain ⟨_, hmessage, hfile, hsplit⟩ := exists_eq_append_of_splitOn hsplit
      obtain ⟨_, rfl, hl, hsplit⟩ := exists_eq_append_of_splitOn hsplit
      obtain ⟨rest, rfl, hc, _⟩ := exists_eq_append_of_splitOn hsplit
      obtain ⟨l, hline, h⟩ := Option.bind_eq_some_iff.1 h
      obtain ⟨c, hcolumn, h⟩ := Option.bind_eq_some_iff.1 h
      cases h
      exact ⟨file, lineText, columnText, rest, hmessage, hfile, hl, hc,
        readWord_trim_eq_some_iff.1 hline, readWord_trim_eq_some_iff.1 hcolumn⟩
    next => cases h
  · rintro ⟨file, lineText, columnText, rest, hmessage, hfile, hl, hc, hline, hcolumn⟩
    obtain ⟨last, more, hlast⟩ := List.exists_cons_of_ne_nil (List.splitOn_ne_nil ':' rest)
    rw [location?, hmessage, List.splitOn_append_cons_self_of_not_mem hfile,
      List.splitOn_append_cons_self_of_not_mem hl, List.splitOn_append_cons_self_of_not_mem hc,
      hlast]
    simp [readWord_trim_eq_some_iff.2 hline, readWord_trim_eq_some_iff.2 hcolumn]

theorem location?_eq_none_iff :
    location? message = none ↔ ¬ ∃ line column, Locates message line column := by
  rw [Option.eq_none_iff_forall_ne_some, Prod.forall]
  simp [location?_eq_some_iff]

theorem ofMessage_of_locates (h : Locates message line column) :
    ofMessage message = ⟨message, line, column⟩ := by
  rw [ofMessage, location?_eq_some_iff.2 h]
  rfl

theorem ofMessage_of_not_locates (h : ¬ ∃ line column, Locates message line column) :
    ofMessage message = ⟨message, 0, 0⟩ := by
  rw [ofMessage, location?_eq_none_iff.2 h]
  rfl

/-- A message about a place of a file, as the parser writes it. -/
def located (file : String) (line column : Nat) (text : String) : String :=
  file ++ ":" ++ toString line ++ ":" ++ toString column ++ ": " ++ text

theorem toList_located (file text : String) (line column : Nat) :
    (located file line column text).toList =
      file.toList ++ ':' :: (Nat.toDigits 10 line ++ ':' :: (Nat.toDigits 10 column ++ ':' ::
        (' ' :: text.toList))) := by
  simp [located, Nat.toString_eq_repr]

theorem isPaddedWord_decimal {n : Nat} (h : n < wordLimit) :
    IsPaddedWord (Nat.toDigits 10 n) n :=
  ⟨[], Nat.toDigits 10 n, [], by simp, by simp, by simp, isWord_decimal h⟩

theorem locates_located {file text : String} (hfile : ':' ∉ file.toList)
    (hline : line < wordLimit) (hcolumn : column < wordLimit) :
    Locates (located file line column text) line column :=
  ⟨file.toList, Nat.toDigits 10 line, Nat.toDigits 10 column, ' ' :: text.toList,
    toList_located file text line column, hfile, not_mem_decimal (by decide) line,
    not_mem_decimal (by decide) column, isPaddedWord_decimal hline, isPaddedWord_decimal hcolumn⟩

/-- A diagnostic keeps its message and has the line and the column that the message starts with, if
it does, and otherwise zeros. Those that were written into a message are read back. -/
theorem ofMessage_reads_location (message : String) :
    (ofMessage message).message = message ∧
      (∀ line column, Locates message line column →
        (ofMessage message).line = line ∧ (ofMessage message).column = column) ∧
      ((¬ ∃ line column, Locates message line column) →
        (ofMessage message).line = 0 ∧ (ofMessage message).column = 0) ∧
      ∀ (file text : String) (line column : Nat), ':' ∉ file.toList → line < wordLimit →
        column < wordLimit →
          ofMessage (located file line column text) =
            ⟨located file line column text, line, column⟩ := by
  refine ⟨rfl, fun line column h => ?_, fun h => ?_, fun file text line column hfile hl hc => ?_⟩
  · rw [ofMessage_of_locates h]
    exact ⟨rfl, rfl⟩
  · rw [ofMessage_of_not_locates h]
    exact ⟨rfl, rfl⟩
  · exact ofMessage_of_locates (locates_located hfile hl hc)

/-- Blanks and a plus sign are read over; a message with too few colons has no location. -/
theorem ofMessage_reads_location_padded :
    Locates "a.go: +5 :010:" 5 10 ∧ (ofMessage "a.go: +5 :010:").line = 5 ∧
      (¬ ∃ line column, Locates "a.go:5:10" line column) ∧ (ofMessage "a.go:5:10").line = 0 ∧
      ofMessage (located "input.go" 5 10 "expected ';': found 'EOF'") =
        ⟨"input.go:5:10: expected ';': found 'EOF'", 5, 10⟩ := by
  have hlocates : Locates "a.go: +5 :010:" 5 10 := location?_eq_some_iff.1 (by decide +kernel)
  have hshort : ¬ ∃ line column, Locates "a.go:5:10" line column :=
    location?_eq_none_iff.1 (by decide +kernel)
  obtain ⟨_, hread, _, hwritten⟩ := ofMessage_reads_location "a.go: +5 :010:"
  obtain ⟨_, _, habsent, _⟩ := ofMessage_reads_location "a.go:5:10"
  refine ⟨hlocates, (hread 5 10 hlocates).1, hshort, (habsent hshort).1, ?_⟩
  exact hwritten "input.go" _ 5 10 (by decide) (by decide) (by decide)

/-- The line and the column are both those of a place, which are counted from one, or both zero. -/
def IsWhole (d : Diagnostic) : Prop :=
  (1 ≤ d.line ∧ 1 ≤ d.column) ∨ (d.line = 0 ∧ d.column = 0)

instance (d : Diagnostic) : Decidable d.IsWhole := inferInstanceAs (Decidable (_ ∨ _))

theorem isWhole_iff {d : Diagnostic} : d.IsWhole ↔ (d.line = 0 ↔ d.column = 0) := by
  rw [IsWhole]
  omega

theorem locates_iff (h : Locates message line column) {l c : Nat} :
    Locates message l c ↔ l = line ∧ c = column := by
  rw [← location?_eq_some_iff, location?_eq_some_iff.2 h, Option.some.injEq, Prod.mk.injEq,
    eq_comm, eq_comm (a := column)]

/-- What a message says is whole unless it has one zero. -/
theorem isWhole_ofMessage_iff :
    (ofMessage message).IsWhole ↔
      ∀ line column, Locates message line column → (line = 0 ↔ column = 0) := by
  rw [isWhole_iff]
  by_cases h : ∃ line column, Locates message line column
  · obtain ⟨line, column, h⟩ := h
    simp [ofMessage_of_locates h, locates_iff h]
  · rw [ofMessage_of_not_locates h]
    refine iff_of_true Iff.rfl fun line column hlocates => absurd ⟨line, column, hlocates⟩ h

/-- A diagnostic with a location has a place unless its column is zero. -/
theorem hasLocation_ofMessage_iff :
    ((ofMessage message).hasLocation = true ↔
        1 ≤ (ofMessage message).line ∧ 1 ≤ (ofMessage message).column) ↔
      ∀ line, Locates message line 0 → line = 0 := by
  rw [hasLocation, decide_eq_true_iff]
  by_cases h : ∃ line column, Locates message line column
  · obtain ⟨line, column, h⟩ := h
    simp only [ofMessage_of_locates h, locates_iff h]
    constructor
    · rintro hplace l ⟨rfl, hzero⟩
      omega
    · intro hzero
      have := hzero line
      omega
  · rw [ofMessage_of_not_locates h]
    exact iff_of_true (by simp) fun line hlocates => absurd ⟨line, 0, hlocates⟩ h

/-- A diagnostic is whole unless exactly one of the numbers in its message is zero, and to have a
location is to name a place unless that number is the column. Each number other than zero that is
written into a message beside a zero gives such a diagnostic. -/
theorem location_breaks_at_zero (message : String) :
    ((ofMessage message).IsWhole ↔
        ∀ line column, Locates message line column → (line = 0 ↔ column = 0)) ∧
      (((ofMessage message).hasLocation = true ↔
          1 ≤ (ofMessage message).line ∧ 1 ≤ (ofMessage message).column) ↔
        ∀ line, Locates message line 0 → line = 0) ∧
      ∀ (file text : String) (number : Nat), ':' ∉ file.toList → 1 ≤ number → number < wordLimit →
        let atColumnZero := ofMessage (located file number 0 text)
        let onLineZero := ofMessage (located file 0 number text)
        (¬ atColumnZero.IsWhole ∧ atColumnZero.hasLocation = true ∧ atColumnZero.column = 0) ∧
          (¬ onLineZero.IsWhole ∧ onLineZero.hasLocation = false ∧
            onLineZero.column = number) := by
  refine ⟨isWhole_ofMessage_iff, hasLocation_ofMessage_iff, ?_⟩
  intro file text number hfile hpos hlt atColumnZero onLineZero
  have hzero : 0 < wordLimit := by decide
  have hcolumn : atColumnZero = ⟨_, number, 0⟩ :=
    ofMessage_of_locates (locates_located hfile hlt hzero)
  have hline : onLineZero = ⟨_, 0, number⟩ :=
    ofMessage_of_locates (locates_located hfile hzero hlt)
  rw [hcolumn, hline, isWhole_iff, isWhole_iff]
  refine ⟨⟨?_, decide_eq_true hpos, rfl⟩, ?_, rfl, rfl⟩
  · show ¬ (number = 0 ↔ 0 = 0)
    omega
  · show ¬ (0 = 0 ↔ number = 0)
    omega

theorem location_breaks_at_zero_column :
    let d := ofMessage (located "f" 3 0 "x")
    ':' ∉ "f".toList ∧ 1 ≤ 3 ∧ 3 < wordLimit ∧ ¬ d.IsWhole ∧ d.hasLocation = true ∧
      d.column = 0 := by
  obtain ⟨_, _, hzero⟩ := location_breaks_at_zero ""
  obtain ⟨hcolumn, _⟩ := hzero "f" "x" 3 (by decide) (by decide) (by decide)
  exact ⟨by decide, by decide, by decide, hcolumn⟩

/-- A message that names line 3 and column 0. -/
theorem not_isWhole_ofMessage :
    let d := ofMessage "f:3:0:x"
    ¬ ((1 ≤ d.line ∧ 1 ≤ d.column) ∨ (d.line = 0 ∧ d.column = 0)) ∧
      ¬ (d.hasLocation = true ↔ 1 ≤ d.line ∧ 1 ≤ d.column) := by
  decide +kernel

end SyntaxOutline.Diagnostic
