import Mathlib.Data.List.Induction
import SyntaxOutline.LineTable

/-! # Lines of a table

The table of a text lists the starts of its lines in ascending order, the first of them zero. An
offset is on the last line that starts at or before it. That line is the last one of the text before
the offset, so it is found by counting line feeds; the search by halving ends at the same line. -/
namespace SyntaxOutline.LineTable

/-- Lines start at ascending offsets inside the text, the first one at zero. -/
structure Ordered (t : LineTable) : Prop where
  first : t.lineStart? 1 = some 0
  le_size : ∀ {line start : Nat}, t.lineStart? line = some start → start ≤ t.size
  lt_of_lt : ∀ {line later start next : Nat}, line < later → t.lineStart? line = some start →
    t.lineStart? later = some next → start < next

/-- The offset is on the line, which has the given start. The last line has no end. -/
structure OnLine (t : LineTable) (line start offset : Nat) : Prop where
  start_eq : t.lineStart? line = some start
  start_le : start ≤ offset
  lt_next : ∀ next, t.lineStart? (line + 1) = some next → offset < next

/-- The number is the offset just after the last line feed, or zero if there is none. -/
structure FollowsLastFeed (bytes : List UInt8) (start : Nat) : Prop where
  zero_or_feed : start = 0 ∨ ∃ i, bytes[i]? = some lineFeed ∧ start = i + 1
  no_feed_after : lineFeed ∉ bytes.drop start

/-- Where the last line starts. -/
def lastStart (t : LineTable) : Nat := t.starts.back t.starts_size_pos

variable {t : LineTable} {line start offset : Nat}

theorem lineStart?_succ (t : LineTable) (index : Nat) :
    t.lineStart? (index + 1) = t.starts[index]? := rfl

theorem lineStart?_eq_getD {index : Nat} (h : index < t.starts.size) :
    t.lineStart? (index + 1) = some (t.starts.getD index 0) := by
  rw [lineStart?_succ, Array.getD_eq_getD_getElem?, Array.getElem?_eq_getElem h, Option.getD_some]

theorem lineStart?_lineCount (t : LineTable) : t.lineStart? t.lineCount = some t.lastStart := by
  obtain ⟨count, hcount⟩ : ∃ count, t.lineCount = count + 1 :=
    Nat.exists_eq_add_one.2 t.starts_size_pos
  have hsize : t.starts.size = count + 1 := hcount
  rw [hcount, lineStart?_succ, lastStart, Array.back, Array.getElem?_eq_getElem (by omega)]
  simp [hsize]

theorem le_lineCount_of_lineStart? (h : t.lineStart? line = some start) : line ≤ t.lineCount := by
  have hsome : ¬ t.lineStart? line = none := by simp [h]
  rw [lineStart?_eq_none_iff] at hsome
  omega

theorem exists_lineStart? (hpos : 0 < line) (hle : line ≤ t.lineCount) :
    ∃ start, t.lineStart? line = some start := by
  rw [← Option.ne_none_iff_exists', Ne, lineStart?_eq_none_iff]
  omega

theorem FollowsLastFeed.le {bytes : List UInt8} {start' : Nat} (h : FollowsLastFeed bytes start)
    (h' : FollowsLastFeed bytes start') : start ≤ start' := by
  rcases h.zero_or_feed with rfl | ⟨i, hi, rfl⟩
  · exact Nat.zero_le start'
  · by_contra hlt
    have hdrop : (bytes.drop start')[i - start']? = some lineFeed := by
      rw [List.getElem?_drop, Nat.add_sub_cancel' (by omega), hi]
    exact h'.no_feed_after (List.mem_of_getElem? hdrop)

/-! ## One more byte -/

theorem lineCount_push (t : LineTable) (byte : UInt8) :
    (t.push byte).lineCount = t.lineCount + if byte = lineFeed then 1 else 0 := by
  unfold push
  split <;> simp [lineCount]

theorem lineStart?_push (t : LineTable) (byte : UInt8) (line : Nat) :
    (t.push byte).lineStart? line =
      if byte = lineFeed ∧ line = t.lineCount + 1 then some (t.size + 1)
      else t.lineStart? line := by
  unfold push
  by_cases hfeed : byte = lineFeed
  · cases line with
    | zero => simp [hfeed, lineStart?]
    | succ index => simp [hfeed, lineStart?, lineCount, Array.getElem?_push]
  · simp [hfeed, lineStart?]

theorem lastStart_push (t : LineTable) (byte : UInt8) :
    (t.push byte).lastStart = if byte = lineFeed then t.size + 1 else t.lastStart := by
  have hlast := (t.push byte).lineStart?_lineCount
  rw [lineStart?_push, lineCount_push] at hlast
  by_cases hfeed : byte = lineFeed
  · simpa [hfeed] using hlast.symm
  · simpa [hfeed, lineStart?_lineCount] using hlast.symm

theorem ordered_empty : empty.Ordered where
  first := rfl
  le_size {line start} h := by
    have hline := le_lineCount_of_lineStart? h
    match line, hline with
    | 1, _ => simpa [lineStart?, empty] using h.symm
  lt_of_lt {line later _ _} hlt hstart hnext := by
    have hlater : later ≤ 1 := le_lineCount_of_lineStart? hnext
    obtain rfl : line = 0 := by omega
    cases hstart

theorem Ordered.push (h : t.Ordered) (byte : UInt8) : (t.push byte).Ordered where
  first := by
    have hcount : 0 < t.lineCount := t.starts_size_pos
    rw [lineStart?_push, if_neg (by omega), h.first]
  le_size {line start} hstart := by
    rw [lineStart?_push] at hstart
    rw [size_push]
    split at hstart
    · exact Nat.le_of_eq (Option.some.inj hstart).symm
    · exact Nat.le_succ_of_le (h.le_size hstart)
  lt_of_lt {line later start next} hlt hstart hnext := by
    rw [lineStart?_push] at hstart hnext
    split at hnext
    next hlast =>
      have hline : line ≠ t.lineCount + 1 := by omega
      rw [if_neg (by simp [hline])] at hstart
      have hsize := h.le_size hstart
      have hlater : t.size + 1 = next := Option.some.inj hnext
      omega
    next =>
      have hlater := le_lineCount_of_lineStart? hnext
      rw [if_neg (by omega)] at hstart
      exact h.lt_of_lt hlt hstart hnext

/-! ## The table of a text -/

theorem ordered_ofBytes (bytes : List UInt8) : (ofBytes bytes).Ordered := by
  induction bytes using List.reverseRecOn with
  | nil => exact ordered_empty
  | append_singleton bytes byte ih =>
    rw [ofBytes_append_singleton]
    exact ih.push byte

theorem size_ofBytes (bytes : List UInt8) : (ofBytes bytes).size = bytes.length := by
  induction bytes using List.reverseRecOn with
  | nil => rfl
  | append_singleton bytes byte ih =>
    rw [ofBytes_append_singleton, size_push, ih, List.length_append]
    rfl

theorem lineCount_ofBytes (bytes : List UInt8) :
    (ofBytes bytes).lineCount = bytes.count lineFeed + 1 := by
  induction bytes using List.reverseRecOn with
  | nil => rfl
  | append_singleton bytes byte ih =>
    rw [ofBytes_append_singleton, lineCount_push, ih, List.count_append, List.count_singleton]
    simp only [beq_iff_eq]
    omega

theorem followsLastFeed_ofBytes (bytes : List UInt8) :
    FollowsLastFeed bytes (ofBytes bytes).lastStart := by
  induction bytes using List.reverseRecOn with
  | nil => exact ⟨.inl rfl, by simp⟩
  | append_singleton bytes byte ih =>
    rw [ofBytes_append_singleton, lastStart_push, size_ofBytes]
    split
    next hfeed => exact ⟨.inr ⟨bytes.length, by simp [hfeed], rfl⟩, by simp⟩
    next hfeed =>
      refine ⟨ih.zero_or_feed.imp_right ?_, ?_⟩
      · rintro ⟨i, hi, hstart⟩
        have hlt : i < bytes.length := (List.getElem?_eq_some_iff.1 hi).1
        exact ⟨i, by rw [List.getElem?_append_left hlt, hi], hstart⟩
      · intro hmem
        rw [List.drop_append, List.mem_append] at hmem
        rcases hmem with hmem | hmem
        · exact ih.no_feed_after hmem
        · exact hfeed (List.mem_singleton.1 (List.mem_of_mem_drop hmem)).symm

/-- The lines of a text up to some place are the first lines of the whole text. -/
theorem lineStart?_ofBytes_append (before after : List UInt8)
    (h : line ≤ (ofBytes before).lineCount) :
    (ofBytes (before ++ after)).lineStart? line = (ofBytes before).lineStart? line := by
  induction after using List.reverseRecOn with
  | nil => rw [List.append_nil]
  | append_singleton after byte ih =>
    have hcount : (ofBytes before).lineCount ≤ (ofBytes (before ++ after)).lineCount := by
      rw [lineCount_ofBytes, lineCount_ofBytes, List.count_append]
      omega
    rw [← List.append_assoc, ofBytes_append_singleton, lineStart?_push, if_neg (by omega), ih]

/-- The further lines start after that place. -/
theorem length_lt_of_lineStart?_append (before after : List UInt8)
    (h : (ofBytes before).lineCount < line)
    (hstart : (ofBytes (before ++ after)).lineStart? line = some start) :
    before.length < start := by
  induction after using List.reverseRecOn with
  | nil =>
    rw [List.append_nil] at hstart
    exact absurd (le_lineCount_of_lineStart? hstart) (by omega)
  | append_singleton after byte ih =>
    rw [← List.append_assoc, ofBytes_append_singleton, lineStart?_push] at hstart
    split at hstart
    · rw [size_ofBytes, List.length_append, Option.some.injEq] at hstart
      omega
    · exact ih hstart

/-- An offset is on the last line of the text before it. -/
theorem onLine_ofBytes (bytes : List UInt8) (offset : Nat) :
    (ofBytes bytes).OnLine ((bytes.take offset).count lineFeed + 1)
      (ofBytes (bytes.take offset)).lastStart offset where
  start_eq := by
    have happend := lineStart?_ofBytes_append (bytes.take offset) (bytes.drop offset)
      (Nat.le_refl _)
    rwa [List.take_append_drop, lineStart?_lineCount, lineCount_ofBytes] at happend
  start_le := by
    have hsize := (ordered_ofBytes (bytes.take offset)).le_size (lineStart?_lineCount _)
    rw [size_ofBytes, List.length_take] at hsize
    omega
  lt_next next hnext := by
    rw [← lineCount_ofBytes] at hnext
    by_cases hinside : offset ≤ bytes.length
    · have hlt := length_lt_of_lineStart?_append (bytes.take offset) (bytes.drop offset)
        (Nat.lt_succ_self _) (by rwa [List.take_append_drop])
      rwa [List.length_take_of_le hinside] at hlt
    · rw [List.take_of_length_le (by omega)] at hnext
      exact absurd (le_lineCount_of_lineStart? hnext) (by omega)

/-! ## The search for a line -/

namespace Ordered

theorem le_of_le (h : t.Ordered) {later next : Nat} (hle : line ≤ later)
    (hstart : t.lineStart? line = some start) (hnext : t.lineStart? later = some next) :
    start ≤ next := by
  rcases Nat.lt_or_eq_of_le hle with hlt | rfl
  · exact Nat.le_of_lt (h.lt_of_lt hlt hstart hnext)
  · exact Nat.le_of_eq (Option.some.inj (hstart.symm.trans hnext))

/-- A later offset is not on an earlier line. -/
theorem line_le (h : t.Ordered) {line' start' offset' : Nat} (ho : t.OnLine line start offset)
    (ho' : t.OnLine line' start' offset') (hle : offset ≤ offset') : line ≤ line' := by
  by_contra hlt
  obtain ⟨next, hnext⟩ : ∃ next, t.lineStart? (line' + 1) = some next := by
    have hline := le_lineCount_of_lineStart? ho.start_eq
    exact exists_lineStart? (Nat.succ_pos line') (by omega)
  have hbefore : next ≤ start := h.le_of_le (by omega) hnext ho.start_eq
  have hafter := ho'.lt_next next hnext
  have hstart := ho.start_le
  omega

theorem onLine_unique (h : t.Ordered) {line' start' : Nat} (ho : t.OnLine line start offset)
    (ho' : t.OnLine line' start' offset) : line = line' ∧ start = start' := by
  obtain rfl : line = line' :=
    Nat.le_antisymm (h.line_le ho ho' (Nat.le_refl _)) (h.line_le ho' ho (Nat.le_refl _))
  exact ⟨rfl, Option.some.inj (ho.start_eq.symm.trans ho'.start_eq)⟩

/-- The search keeps the line of the offset inside its window. -/
theorem onLine_lastAtMost (h : t.Ordered) {low high : Nat} (hwindow : low < high)
    (hhigh : high ≤ t.starts.size) (hlow : t.starts.getD low 0 ≤ offset)
    (habove : ∀ i next, high ≤ i → t.starts[i]? = some next → offset < next) :
    t.OnLine (lastAtMost t.starts offset low high + 1)
      (t.starts.getD (lastAtMost t.starts offset low high) 0) offset := by
  fun_induction lastAtMost t.starts offset low high with
  | case1 low high hgap middle hle ih => exact ih (by omega) hhigh hle habove
  | case2 low high hgap middle hgt ih =>
    have hmiddle : t.lineStart? (middle + 1) = some (t.starts.getD middle 0) :=
      lineStart?_eq_getD (by omega)
    refine ih (by omega) (by omega) hlow fun i next hi hnext => ?_
    have hle : t.starts.getD middle 0 ≤ next :=
      h.le_of_le (Nat.succ_le_succ hi) hmiddle hnext
    omega
  | case3 low high hgap =>
    exact ⟨lineStart?_eq_getD (by omega), hlow,
      fun next hnext => habove (low + 1) next (by omega) hnext⟩

theorem onLine_position (h : t.Ordered) (offset : Nat) :
    ∃ start, t.OnLine (t.position offset).line start offset ∧
      (t.position offset).column = offset - start + 1 := by
  have hfirst : t.starts.getD 0 0 = 0 :=
    Option.some.inj ((lineStart?_eq_getD t.starts_size_pos).symm.trans h.first)
  have hlow : t.starts.getD 0 0 ≤ offset := by
    rw [hfirst]
    exact Nat.zero_le offset
  have hnone : ∀ i next, t.starts.size ≤ i → t.starts[i]? = some next → offset < next := by
    intro i next hi hnext
    rw [Array.getElem?_eq_none hi] at hnext
    cases hnext
  exact ⟨_, h.onLine_lastAtMost t.starts_size_pos (Nat.le_refl _) hlow hnone, rfl⟩

/-- The position of an offset is read off the line that it is on. -/
theorem position_eq (h : t.Ordered) (ho : t.OnLine line start offset) :
    t.position offset = { line, column := offset - start + 1, offset } := by
  obtain ⟨start', ho', hcolumn⟩ := h.onLine_position offset
  obtain ⟨hline, rfl⟩ := h.onLine_unique ho ho'
  rw [hline, ← hcolumn]
  rfl

end Ordered

end SyntaxOutline.LineTable
