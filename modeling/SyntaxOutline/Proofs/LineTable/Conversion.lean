import SyntaxOutline.Proofs.LineTable.Lines

/-! # Offsets and positions

The position of an offset counts the line feeds before it, and the bytes after the last of them.
Positions in ascending order are the positions of ascending offsets, and each offset is found again
from its position. A line and column lead to an offset whenever their sum stays a word, so the last
word of all is out of reach. -/
namespace SyntaxOutline.LineTable

variable {t : LineTable} {line column start offset : Nat}

/-- A number that a word holds. -/
def word? (value : Int) : Option Nat :=
  if 0 ≤ value ∧ value < Text.wordLimit then some value.toNat else none

/-- The columns of a line end where the next line starts. Those of the last line go on as long as
a word holds their sum with the start. -/
def HasColumn (t : LineTable) (line column : Nat) : Prop :=
  ∃ start, t.lineStart? line = some start ∧ 1 ≤ column ∧
    match t.lineStart? (line + 1) with
    | some next => column ≤ next - start
    | none => start + column < Text.wordLimit

theorem ordered_ofText (text : String) : (ofText text).Ordered := ordered_ofBytes _

theorem size_ofText (text : String) : (ofText text).size = text.utf8ByteSize := by
  rw [ofText, size_ofBytes]
  rfl

theorem offset?_of_lineStart? (h : t.lineStart? line = some start) (column : Nat) :
    t.offset? line column =
      if 0 < start + column ∧ start + column < Text.wordLimit then some (start + column - 1)
      else none := by
  rw [offset?, h]
  rfl

theorem Ordered.position_of_getElem? (h : t.Ordered) {i : Nat}
    (hi : t.starts[i]? = some offset) : (t.position offset).line = i + 1 := by
  have hstart : t.lineStart? (i + 1) = some offset := hi
  have hline : t.OnLine (i + 1) offset offset :=
    ⟨hstart, Nat.le_refl _, fun _ hnext => h.lt_of_lt (Nat.lt_succ_self _) hstart hnext⟩
  rw [h.position_eq hline]

/-- An offset that is not listed is on the line before the place where it would be put in. -/
theorem Ordered.position_of_between (h : t.Ordered) {i : Nat} (hi : i ≤ t.starts.size)
    (hbelow : ∀ j s, j < i → t.starts[j]? = some s → s < offset)
    (habove : ∀ j s, i ≤ j → t.starts[j]? = some s → offset < s) :
    0 < i ∧ (t.position offset).line = i := by
  cases i with
  | zero => exact absurd (habove 0 0 (Nat.le_refl 0) h.first) (Nat.not_lt_zero offset)
  | succ i =>
    obtain ⟨start, hstart⟩ : ∃ start, t.lineStart? (i + 1) = some start :=
      exists_lineStart? (Nat.succ_pos i) hi
    have hline : t.OnLine (i + 1) start offset :=
      ⟨hstart, Nat.le_of_lt (hbelow i start (Nat.lt_succ_self i) hstart),
        fun next hnext => habove (i + 1) next (Nat.le_refl _) hnext⟩
    exact ⟨Nat.succ_pos i, by rw [h.position_eq hline]⟩

/-- The line of an offset counts the line feeds before it, and the column the bytes after the last
of them. The line is in the table, and it is the one that any search for the offset among the line
starts leads to, whether the offset is one of them or not. -/
theorem position_counts_feeds (text : String) (offset : Nat)
    (hoffset : offset + 1 < Text.wordLimit) :
    let t := ofText text
    let before := text.toUTF8.data.toList.take offset
    (∃ start, (∀ other, FollowsLastFeed before other ↔ other = start) ∧
        start ≤ offset ∧
        t.position offset =
          { line := 1 + before.count lineFeed, column := 1 + offset - start, offset } ∧
        t.lineStart? (t.position offset).line = some start ∧
        (t.position offset).column < Text.wordLimit) ∧
      (∀ i : Nat, t.starts[i]? = some offset → (t.position offset).line = i + 1) ∧
      ∀ i ≤ t.starts.size, (∀ j s, j < i → t.starts[j]? = some s → s < offset) →
        (∀ j s, i ≤ j → t.starts[j]? = some s → offset < s) →
          0 < i ∧ (t.position offset).line = i := by
  intro t before
  have hordered : t.Ordered := ordered_ofText text
  have hline : t.OnLine (before.count lineFeed + 1) (ofBytes before).lastStart offset :=
    onLine_ofBytes _ offset
  have hfeed := followsLastFeed_ofBytes before
  have hposition := hordered.position_eq hline
  have hle := hline.start_le
  refine ⟨⟨(ofBytes before).lastStart, fun other => ?_, hle, ?_, ?_, ?_⟩,
    fun i => hordered.position_of_getElem?, fun i hi => hordered.position_of_between hi⟩
  · constructor
    · intro hother
      exact Nat.le_antisymm (hother.le hfeed) (hfeed.le hother)
    · rintro rfl
      exact hfeed
  · rw [hposition, Nat.add_comm 1, Nat.add_comm 1, Nat.sub_add_comm hle]
  · rw [hposition]
    exact hline.start_eq
  · rw [hposition]
    show offset - _ + 1 < Text.wordLimit
    omega

/-- The second line feed of the text starts a third line, on which the offsets past the end are. -/
theorem position_counts_feeds_past_end :
    40 + 1 < Text.wordLimit ∧
      (ofText "a\n\nbc").position 40 = { line := 3, column := 38, offset := 40 } ∧
      ∀ other, FollowsLastFeed ("a\n\nbc".toUTF8.data.toList.take 40) other ↔ other = 3 := by
  have hposition : (ofText "a\n\nbc").position 40 = { line := 3, column := 38, offset := 40 } := by
    decide +kernel
  have hstart : (ofText "a\n\nbc").lineStart? 3 = some 3 := by decide +kernel
  obtain ⟨⟨start, honly, _, _, hline, _⟩, _⟩ :=
    position_counts_feeds "a\n\nbc" 40 (by decide)
  rw [hposition] at hline
  obtain rfl : 3 = start := Option.some.inj (hstart.symm.trans hline)
  exact ⟨by decide, hposition, honly⟩

/-! ## Back to the offset -/

theorem Ordered.hasColumn_position (h : t.Ordered) (hoffset : offset + 1 < Text.wordLimit) :
    t.HasColumn (t.position offset).line (t.position offset).column := by
  obtain ⟨start, hline, hcolumn⟩ := h.onLine_position offset
  have hle := hline.start_le
  refine ⟨start, hline.start_eq, by omega, ?_⟩
  cases hnext : t.lineStart? ((t.position offset).line + 1) with
  | none => show start + _ < _; omega
  | some next =>
    have hlt := hline.lt_next next hnext
    show _ ≤ next - start
    omega

theorem Ordered.offset?_position (h : t.Ordered) (hoffset : offset + 1 < Text.wordLimit) :
    t.offset? (t.position offset).line (t.position offset).column = some offset := by
  obtain ⟨start, hline, hcolumn⟩ := h.onLine_position offset
  have hle := hline.start_le
  rw [offset?_of_lineStart? hline.start_eq, hcolumn, if_pos (by omega)]
  congr 1
  omega

/-- A column of a line leads to an offset on that line. -/
theorem Ordered.position_of_hasColumn (h : t.Ordered) (hsize : t.size < Text.wordLimit)
    (hcolumn : t.HasColumn line column) :
    ∃ offset, offset + 1 < Text.wordLimit ∧ t.offset? line column = some offset ∧
      t.position offset = { line, column, offset } := by
  obtain ⟨start, hstart, hpos, hend⟩ := hcolumn
  have hsum : start + column < Text.wordLimit ∧
      ∀ next, t.lineStart? (line + 1) = some next → start + column ≤ next := by
    cases hnext : t.lineStart? (line + 1) with
    | none =>
      rw [hnext] at hend
      exact ⟨hend, by simp⟩
    | some next =>
      rw [hnext] at hend
      have hlt := h.lt_of_lt (Nat.lt_succ_self line) hstart hnext
      have hle := h.le_size hnext
      have hend : column ≤ next - start := hend
      refine ⟨by omega, fun other hother => ?_⟩
      obtain rfl : next = other := Option.some.inj hother
      omega
  have hline : t.OnLine line start (start + column - 1) :=
    ⟨hstart, by omega, fun next hnext => by have := hsum.2 next hnext; omega⟩
  refine ⟨start + column - 1, by omega, ?_, ?_⟩
  · rw [offset?_of_lineStart? hstart, if_pos (by omega)]
  · rw [h.position_eq hline]
    congr 1
    omega

/-- Of two offsets the smaller one has the smaller position. -/
theorem Ordered.position_lt (h : t.Ordered) {earlier later : Nat} (hlt : earlier < later) :
    (t.position earlier).line < (t.position later).line ∨
      (t.position earlier).line = (t.position later).line ∧
        (t.position earlier).column < (t.position later).column := by
  obtain ⟨start, hline, hcolumn⟩ := h.onLine_position earlier
  obtain ⟨start', hline', hcolumn'⟩ := h.onLine_position later
  rcases Nat.lt_or_eq_of_le (h.line_le hline hline' (Nat.le_of_lt hlt)) with hless | heq
  · exact .inl hless
  · rw [← heq] at hline'
    obtain rfl : start = start' :=
      Option.some.inj (hline.start_eq.symm.trans hline'.start_eq)
    have hle := hline.start_le
    exact .inr ⟨heq, by omega⟩

/-- Offsets and the columns of lines correspond to each other, in the same order: an offset is found
again from its position, a column of a line is the position of its offset if the text's length is a
word, and of two offsets the smaller one has the smaller position. -/
theorem positions_match_offsets (text : String) :
    let t := ofText text
    (∀ offset, offset + 1 < Text.wordLimit →
        t.HasColumn (t.position offset).line (t.position offset).column ∧
          t.offset? (t.position offset).line (t.position offset).column = some offset) ∧
      (text.utf8ByteSize < Text.wordLimit → ∀ line column, t.HasColumn line column →
        ∃ offset, offset + 1 < Text.wordLimit ∧ t.offset? line column = some offset ∧
          t.position offset = { line, column, offset }) ∧
      ∀ earlier later, earlier < later →
        (t.position earlier).line < (t.position later).line ∨
          (t.position earlier).line = (t.position later).line ∧
            (t.position earlier).column < (t.position later).column := by
  intro t
  have hordered : t.Ordered := ordered_ofText text
  refine ⟨fun offset hoffset => ?_, fun hsize line column hcolumn => ?_, fun _ _ hlt => ?_⟩
  · exact ⟨hordered.hasColumn_position hoffset, hordered.offset?_position hoffset⟩
  · rw [← size_ofText] at hsize
    exact hordered.position_of_hasColumn hsize hcolumn
  · exact hordered.position_lt hlt

/-- The line feed is the last column of the first line. The last line goes on past the end. -/
theorem positions_match_offsets_two_lines :
    "a\nb".utf8ByteSize < Text.wordLimit ∧
      ((ofText "a\nb").HasColumn 1 2 ∧ (ofText "a\nb").offset? 1 2 = some 1 ∧
        (ofText "a\nb").position 1 = { line := 1, column := 2, offset := 1 }) ∧
      9 + 1 < Text.wordLimit ∧
      (ofText "a\nb").offset? ((ofText "a\nb").position 9).line
        ((ofText "a\nb").position 9).column = some 9 := by
  have hsize : "a\nb".utf8ByteSize < Text.wordLimit := by decide
  have hfirst : (ofText "a\nb").lineStart? 1 = some 0 := by decide +kernel
  have hnext : (ofText "a\nb").lineStart? (1 + 1) = some 2 := by decide +kernel
  have hcolumn : (ofText "a\nb").HasColumn 1 2 := ⟨0, hfirst, by decide, by simp [hnext]⟩
  have hback : (ofText "a\nb").offset? 1 2 = some 1 := by decide +kernel
  obtain ⟨hoffsets, hcolumns, _⟩ := positions_match_offsets "a\nb"
  obtain ⟨offset, _, hoffset, hposition⟩ := hcolumns hsize 1 2 hcolumn
  obtain rfl : 1 = offset := Option.some.inj (hback.symm.trans hoffset)
  exact ⟨hsize, ⟨hcolumn, hback, hposition⟩, by decide, (hoffsets 9 (by decide)).2⟩

/-! ## Lines and columns without an offset -/

theorem Ordered.start_eq_zero_iff (h : t.Ordered) (hstart : t.lineStart? line = some start) :
    start = 0 ↔ line = 1 := by
  constructor
  · rintro rfl
    by_contra hne
    match line with
    | 0 => cases hstart
    | 1 => exact hne rfl
    | line + 2 => exact absurd (h.lt_of_lt (by omega) h.first hstart) (Nat.lt_irrefl 0)
  · rintro rfl
    exact Option.some.inj (hstart.symm.trans h.first)

theorem Ordered.offset?_eq_none_iff (h : t.Ordered) (line column : Nat) :
    t.offset? line column = none ↔
      (line = 0 ∨ t.lineCount < line) ∨ (line = 1 ∧ column = 0) ∨
        ∃ start, t.lineStart? line = some start ∧ Text.wordLimit ≤ start + column := by
  rw [← lineStart?_eq_none_iff]
  cases hstart : t.lineStart? line with
  | none => simp [offset?, hstart]
  | some start =>
    have hzero := h.start_eq_zero_iff hstart
    rw [offset?_of_lineStart? hstart, ite_eq_right_iff, ← hzero]
    simp only [reduceCtorEq, imp_false, false_or, Option.some.injEq, exists_eq_left']
    omega

/-- The offset of a line and column is their sum less one, as far as a word holds it, with one
exception. -/
theorem offset?_eq_word? (hstart : t.lineStart? line = some start)
    (hsum : start + column ≠ Text.wordLimit) :
    t.offset? line column = word? ((start : Int) + column - 1) := by
  rw [offset?_of_lineStart? hstart, word?]
  by_cases hin : 0 < start + column ∧ start + column < Text.wordLimit
  · rw [if_pos hin, if_pos (by omega)]
    congr 1
    omega
  · rw [if_neg hin, if_neg (by omega)]

/-- There is no offset for an unknown line, for column zero of the first line, and where the sum of
start and column is no word. The last word is not reached for that reason: on every line but the
first it is the offset of one column, for which none is given. -/
theorem offset?_misses_last_word (text : String) (line column : Nat)
    (hcolumn : column < Text.wordLimit) :
    let t := ofText text
    (t.offset? line column = none ↔
        (line = 0 ∨ t.lineCount < line) ∨ (line = 1 ∧ column = 0) ∨
          ∃ start, t.lineStart? line = some start ∧ Text.wordLimit ≤ start + column) ∧
      ∀ start, t.lineStart? line = some start →
        (start + column ≠ Text.wordLimit →
          t.offset? line column = word? ((start : Int) + column - 1)) ∧
        (start + column = Text.wordLimit →
          2 ≤ line ∧ t.offset? line column = none ∧
            word? ((start : Int) + column - 1) = some (Text.wordLimit - 1)) := by
  intro t
  have hordered : t.Ordered := ordered_ofText text
  refine ⟨hordered.offset?_eq_none_iff line column, fun start hstart => ⟨?_, fun hsum => ?_⟩⟩
  · exact offset?_eq_word? hstart
  · have hline : ¬ line = 1 := by
      rw [← hordered.start_eq_zero_iff hstart]
      omega
    have hpos : line ≠ 0 := by
      rintro rfl
      cases hstart
    refine ⟨by omega, ?_, ?_⟩
    · rw [offset?_of_lineStart? hstart, if_neg (by omega)]
    · rw [word?, if_pos (by omega)]
      congr 1
      omega

/-- The second line starts at three. The largest column with an offset on it is four less than the
limit, and the next one belongs to the last word. -/
theorem offset?_misses_last_word_after_feed :
    18446744073709551613 < Text.wordLimit ∧
      (ofText "ab\n").lineStart? 2 = some 3 ∧
      (ofText "ab\n").offset? 2 18446744073709551612 = some 18446744073709551614 ∧
      (ofText "ab\n").offset? 2 18446744073709551613 = none := by
  have hstart : (ofText "ab\n").lineStart? 2 = some 3 := by decide +kernel
  have hlast := (offset?_misses_last_word "ab\n" 2 18446744073709551612 (by decide)).2 3 hstart
  have hbeyond := (offset?_misses_last_word "ab\n" 2 18446744073709551613 (by decide)).2 3 hstart
  refine ⟨by decide, hstart, ?_, (hbeyond.2 (by decide)).2.1⟩
  rw [hlast.1 (by decide)]
  decide

/-- Column `18446744073709551615` of the line that starts at one belongs to the last word, but has
no offset. -/
theorem offset?_refuses_last_word :
    18446744073709551615 < Text.wordLimit ∧ (ofText "\n").lineStart? 2 = some 1 ∧
      word? ((1 : Nat) + (18446744073709551615 : Nat) - 1) = some 18446744073709551615 ∧
      (ofText "\n").offset? 2 18446744073709551615 = none := by
  decide +kernel

end SyntaxOutline.LineTable
