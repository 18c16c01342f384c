import Mathlib.Data.List.TakeWhile
import Mathlib.Data.Set.Function
import SyntaxOutline.Proofs.NodePath.Written
import SyntaxOutline.Proofs.Text.Parts

/-! # The grammar of written paths

The texts that are read as paths are those made of the root's `0` and a hyphen with a numeral for
each step. No path has two spellings, and no spelling stands for two paths. Of a text that is no
path, the first part that breaks the grammar is reported. -/
namespace SyntaxOutline

/-- The root's `0`, and then a hyphen and a numeral for each step. -/
inductive IsPathText : List Char → Prop
  | root : IsPathText ['0']
  | child {above numeral : List Char} (habove : IsPathText above)
      (hnumeral : Text.IsNumeral numeral) : IsPathText (above ++ '-' :: numeral)

namespace NodePath

variable {text : String} {p : NodePath}

theorem toList_text (p : NodePath) :
    p.text.toList = '0' :: p.steps.flatMap fun n => '-' :: Nat.toDigits 10 n := by
  induction p using NodePath.induction with
  | root => rfl
  | child p ordinal ih =>
    rw [toList_text_child, ih]
    simp [child]

theorem isPathText_text (p : NodePath) : IsPathText p.text.toList := by
  induction p using NodePath.induction with
  | root => exact .root
  | child p ordinal ih =>
    rw [toList_text_child]
    exact .child ih (Text.isNumeral_decimal ordinal)

theorem exists_text_of_isPathText {characters : List Char} (h : IsPathText characters) :
    ∃ p : NodePath, p.text.toList = characters := by
  induction h with
  | root => exact ⟨root, rfl⟩
  | @child above numeral _ hnumeral ih =>
    obtain ⟨p, hp⟩ := ih
    refine ⟨p.child (Nat.ofDigitChars 10 numeral 0), ?_⟩
    rw [toList_text_child, hp, Text.toDigits_ofDigitChars hnumeral]

/-- The first part of a text reaches up to the first hyphen. -/
theorem exists_splitOn_eq (characters : List Char) :
    ∃ rest, characters.splitOn '-' = characters.takeWhile (· ≠ '-') :: rest := by
  have hall : ∀ first : List Char, '-' ∉ first → ∀ c ∈ first, decide (c ≠ '-') = true := by
    intro first hfirst c hc
    exact decide_eq_true (ne_of_mem_of_not_mem hc hfirst)
  rcases Text.splitOn_cases '-' characters with ⟨hnone, hsplit⟩ | ⟨first, rest, rfl, hfirst, hsplit⟩
  · refine ⟨[], ?_⟩
    rw [hsplit, List.takeWhile_eq_self_iff.2 (hall characters hnone)]
  · refine ⟨rest.splitOn '-', ?_⟩
    rw [hsplit, List.takeWhile_append_of_pos (hall first hfirst),
      List.takeWhile_cons_of_neg (by simp), List.append_nil]

theorem ofText_eq_of_splitOn {first : List Char} {rest : List (List Char)} (hne : text ≠ "")
    (h : text.toList.splitOn '-' = first :: rest) :
    ofText text =
      if first = ['0'] then
        match rest.find? fun part => !Text.isCanonical part with
        | some part => .error (.invalidStep text (String.ofList part))
        | none => .ok ⟨rest.map fun part => Nat.ofDigitChars 10 part 0⟩
      else .error (.notRooted text) := by
  have hempty : text.isEmpty = false := by simpa using hne
  simp only [ofText, hempty, Bool.false_eq_true, if_false, h]
  split
  next heq =>
    obtain ⟨rfl, rfl⟩ := List.cons.inj heq
    exact (if_pos rfl).symm
  next hroot =>
    rw [if_neg]
    intro heq
    exact hroot rest (heq ▸ rfl)

theorem text_of_parts {rest : List (List Char)} (h : text.toList.splitOn '-' = ['0'] :: rest)
    (hrest : ∀ part ∈ rest, Text.IsNumeral part) :
    (⟨rest.map fun part => Nat.ofDigitChars 10 part 0⟩ : NodePath).text = text := by
  have hparts : (⟨rest.map fun part => Nat.ofDigitChars 10 part 0⟩ : NodePath).parts =
      text.toList.splitOn '-' := by
    rw [h, parts, List.map_map]
    refine congrArg (['0'] :: ·) ((List.map_congr_left fun part hpart => ?_).trans (List.map_id _))
    exact Text.toDigits_ofDigitChars (hrest part hpart)
  rw [NodePath.text, hparts, List.intercalate_splitOn, String.ofList_toList]

/-- A text is read as a path just when it is what the path is written as. -/
theorem ofText_eq_ok_iff : ofText text = .ok p ↔ text = p.text := by
  constructor
  · intro h
    by_cases hne : text = ""
    · rw [hne] at h
      cases h
    · obtain ⟨rest, hsplit⟩ := exists_splitOn_eq text.toList
      rw [ofText_eq_of_splitOn hne hsplit] at h
      split at h
      next hroot =>
        split at h
        next => cases h
        next hnone =>
          have hrest : ∀ part ∈ rest, Text.IsNumeral part := by
            intro part hpart
            rw [← Text.isCanonical_iff]
            simpa using List.find?_eq_none.1 hnone part hpart
          rw [hroot] at hsplit
          rw [← Except.ok.inj h]
          exact (text_of_parts hsplit hrest).symm
      next => cases h
  · rintro rfl
    exact p.ofText_text

theorem ofText_eq_ok_iff_isPathText : (∃ p, ofText text = .ok p) ↔ IsPathText text.toList := by
  constructor
  · rintro ⟨p, hp⟩
    rw [ofText_eq_ok_iff.1 hp]
    exact p.isPathText_text
  · intro h
    obtain ⟨p, hp⟩ := exists_text_of_isPathText h
    exact ⟨p, ofText_eq_ok_iff.2 (String.toList_inj.1 hp.symm)⟩

theorem ofText_eq_empty_iff : ofText text = .error .empty ↔ text = "" := by
  constructor
  · intro h
    by_contra hne
    obtain ⟨rest, hsplit⟩ := exists_splitOn_eq text.toList
    rw [ofText_eq_of_splitOn hne hsplit] at h
    split at h
    next => split at h <;> cases h
    next => cases h
  · rintro rfl
    rfl

theorem ofText_eq_notRooted_iff {named : String} :
    ofText text = .error (.notRooted named) ↔
      named = text ∧ text ≠ "" ∧ text.toList.takeWhile (· ≠ '-') ≠ ['0'] := by
  obtain ⟨rest, hsplit⟩ := exists_splitOn_eq text.toList
  constructor
  · intro h
    have hne : text ≠ "" := by
      rintro rfl
      cases h
    rw [ofText_eq_of_splitOn hne hsplit] at h
    split at h
    next => split at h <;> cases h
    next hroot =>
      cases h
      exact ⟨rfl, hne, hroot⟩
  · rintro ⟨rfl, hne, hroot⟩
    rw [ofText_eq_of_splitOn hne hsplit, if_neg hroot]

/-- The part is the first one below the root that is no numeral. -/
def IsFirstFault (text : String) (part : String) : Prop :=
  ∃ before after, text.toList.splitOn '-' = ['0'] :: (before ++ part.toList :: after) ∧
    (∀ numeral ∈ before, Text.IsNumeral numeral) ∧ ¬ Text.IsNumeral part.toList

theorem isFirstFault_of_find? {rest : List (List Char)} {part : List Char}
    (hsplit : text.toList.splitOn '-' = ['0'] :: rest)
    (h : rest.find? (fun part => !Text.isCanonical part) = some part) :
    IsFirstFault text (String.ofList part) := by
  obtain ⟨hpart, before, after, hrest, hbefore⟩ := List.find?_eq_some_iff_append.1 h
  refine ⟨before, after, ?_, ?_, ?_⟩
  · rw [hsplit, hrest, String.toList_ofList]
  · intro numeral hmem
    rw [← Text.isCanonical_iff]
    simpa using hbefore numeral hmem
  · rw [String.toList_ofList, ← Text.isCanonical_iff]
    simpa using hpart

theorem ofText_eq_invalidStep {named part : String}
    (h : ofText text = .error (.invalidStep named part)) :
    named = text ∧ IsFirstFault text part := by
  have hne : text ≠ "" := by
    rintro rfl
    cases h
  obtain ⟨rest, hsplit⟩ := exists_splitOn_eq text.toList
  rw [ofText_eq_of_splitOn hne hsplit] at h
  split at h
  next hroot =>
    rw [hroot] at hsplit
    split at h
    next hfind =>
      cases h
      exact ⟨rfl, isFirstFault_of_find? hsplit hfind⟩
    next => cases h
  next => cases h

/-- A text that starts at the root and is no path has a first fault, which is reported. -/
theorem exists_ofText_eq_invalidStep (hne : text ≠ "")
    (hroot : text.toList.takeWhile (· ≠ '-') = ['0']) (h : ¬ IsPathText text.toList) :
    ∃ part, ofText text = .error (.invalidStep text part) ∧ IsFirstFault text part := by
  cases hread : ofText text with
  | ok p => exact absurd (ofText_eq_ok_iff_isPathText.1 ⟨p, hread⟩) h
  | error fault =>
    cases fault with
    | empty => exact absurd (ofText_eq_empty_iff.1 hread) hne
    | notRooted named => exact absurd hroot (ofText_eq_notRooted_iff.1 hread).2.2
    | invalidStep named part =>
      obtain ⟨rfl, hfault⟩ := ofText_eq_invalidStep hread
      exact ⟨part, rfl, hfault⟩

end NodePath

namespace WrittenPath

variable {text : String} {w : WrittenPath}

theorem ofText_eq_ok_iff : ofText text = .ok w ↔ w.text = text ∧ ∃ p : NodePath, w = p.written := by
  constructor
  · intro h
    cases hread : NodePath.ofText text with
    | error fault =>
      rw [ofText, hread] at h
      cases h
    | ok p =>
      rw [ofText, hread] at h
      cases h
      exact ⟨rfl, p, by rw [NodePath.written, ← NodePath.ofText_eq_ok_iff.1 hread]⟩
  · rintro ⟨rfl, p, rfl⟩
    rw [ofText, NodePath.written, p.ofText_text]
    rfl

theorem ofText_eq_error_iff {fault : PathFault} :
    ofText text = .error fault ↔ NodePath.ofText text = .error fault := by
  cases hread : NodePath.ofText text with
  | error found => simp [ofText, hread, Except.map]
  | ok p => simp [ofText, hread, Except.map]

theorem ofText_written (p : NodePath) : ofText p.written.text = .ok p.written :=
  ofText_eq_ok_iff.2 ⟨rfl, p, rfl⟩

theorem exists_ofText_iff : (∃ w, ofText text = .ok w) ↔ ∃ p : NodePath, p.text = text := by
  constructor
  · rintro ⟨w, hw⟩
    obtain ⟨rfl, p, rfl⟩ := ofText_eq_ok_iff.1 hw
    exact ⟨p, rfl⟩
  · rintro ⟨p, rfl⟩
    exact ⟨p.written, ofText_written p⟩

/-- The texts that are read as paths stand for the lists of steps, one text for each list. -/
theorem bijOn_text :
    Set.BijOn (fun steps : List Nat => (NodePath.mk steps).text) Set.univ
      {text | ∃ w, ofText text = .ok w} := by
  refine ⟨fun steps _ => exists_ofText_iff.2 ⟨⟨steps⟩, rfl⟩, fun steps _ more _ h => ?_, ?_⟩
  · exact congrArg NodePath.steps (NodePath.text_injective h)
  · intro text htext
    obtain ⟨⟨steps⟩, hsteps⟩ := exists_ofText_iff.1 htext
    exact ⟨steps, trivial, hsteps⟩

/-- A text is read as a path just when it follows the grammar, and it is kept as it is. Each list of
steps has one such text, which the operations on written paths lead to and from. Any other text is
refused with the first thing that is wrong with it. -/
theorem ofText_accepts_grammar (text : String) :
    ((∃ w, ofText text = .ok w) ↔ IsPathText text.toList) ∧
      (∀ w, ofText text = .ok w → w.text = text) ∧
      (Set.BijOn (fun steps : List Nat => (NodePath.mk steps).text) Set.univ
          {text | ∃ w, ofText text = .ok w} ∧
        ∀ p, NodePath.ofText text = .ok p ↔
          text.toList = '0' :: p.steps.flatMap fun step => '-' :: Nat.toDigits 10 step) ∧
      (ofText root.text = .ok root ∧
        ∀ w, ofText text = .ok w →
          (∀ ordinal, ofText (w.child ordinal).text = .ok (w.child ordinal)) ∧
            ∀ v, w.parent? = some v → ofText v.text = .ok v) ∧
      (∀ w p, ofText text = .ok w → NodePath.ofText text = .ok p →
        (∀ step ∈ p.steps, step < Text.wordLimit) →
          w.ordinals = p.steps ∧ w.depth = p.steps.length ∧ p.steps.foldl child root = w) ∧
      (ofText text = .error .empty ↔ text = "") ∧
      ((∃ named, ofText text = .error (.notRooted named)) ↔
        text ≠ "" ∧ text.toList.takeWhile (· ≠ '-') ≠ ['0']) ∧
      (text ≠ "" → text.toList.takeWhile (· ≠ '-') = ['0'] → ¬ IsPathText text.toList →
        ∃ part, ofText text = .error (.invalidStep text part) ∧ NodePath.IsFirstFault text part) := by
  have hread : (∃ w, ofText text = .ok w) ↔ IsPathText text.toList := by
    rw [exists_ofText_iff, ← NodePath.ofText_eq_ok_iff_isPathText]
    simp only [NodePath.ofText_eq_ok_iff, eq_comm (a := text)]
  refine ⟨hread, fun w hw => (ofText_eq_ok_iff.1 hw).1, ⟨bijOn_text, fun p => ?_⟩,
    ⟨ofText_written NodePath.root, fun w hw => ⟨fun ordinal => ?_, fun v hv => ?_⟩⟩,
    fun w p hw hp hwords => ?_, ?_, ?_, fun hne hroot hbroken => ?_⟩
  · rw [NodePath.ofText_eq_ok_iff, ← p.toList_text, String.toList_inj]
  · obtain ⟨_, p, rfl⟩ := ofText_eq_ok_iff.1 hw
    rw [← written_child]
    exact ofText_written _
  · obtain ⟨_, p, rfl⟩ := ofText_eq_ok_iff.1 hw
    rw [parent?_written] at hv
    obtain ⟨q, _, rfl⟩ := Option.map_eq_some_iff.1 hv
    exact ofText_written q
  · obtain ⟨htext, q, rfl⟩ := ofText_eq_ok_iff.1 hw
    obtain rfl : q = p := NodePath.text_injective (htext.trans (NodePath.ofText_eq_ok_iff.1 hp))
    rw [ordinals_written, depth_written, foldl_child_written]
    exact ⟨NodePath.ordinals_eq_steps hwords, rfl, rfl⟩
  · rw [ofText_eq_error_iff, NodePath.ofText_eq_empty_iff]
  · simp only [ofText_eq_error_iff, NodePath.ofText_eq_notRooted_iff, exists_eq_left]
  · obtain ⟨part, hpart, hfault⟩ := NodePath.exists_ofText_eq_invalidStep hne hroot hbroken
    exact ⟨part, ofText_eq_error_iff.2 hpart, hfault⟩

/-- A path with a step of two digits, and a text whose second step has a leading zero. -/
theorem ofText_accepts_grammar_nested :
    ofText "0-3-12" = .ok ⟨"0-3-12"⟩ ∧ (⟨"0-3-12"⟩ : WrittenPath).ordinals = [3, 12] ∧
      "0-3-012" ≠ "" ∧ "0-3-012".toList.takeWhile (· ≠ '-') = ['0'] ∧
      ¬ IsPathText "0-3-012".toList ∧
      ∃ part, ofText "0-3-012" = .error (.invalidStep "0-3-012" part) ∧
        NodePath.IsFirstFault "0-3-012" part := by
  have hpath : NodePath.ofText "0-3-12" = .ok ⟨[3, 12]⟩ := by decide +kernel
  have hwritten : ofText "0-3-12" = .ok ⟨"0-3-12"⟩ := by rw [ofText, hpath]; rfl
  have hwords : ∀ step ∈ [3, 12], step < Text.wordLimit := by decide
  obtain ⟨_, _, _, _, hsteps, _⟩ := ofText_accepts_grammar "0-3-12"
  obtain ⟨hgrammar, _, _, _, _, _, _, hfault⟩ := ofText_accepts_grammar "0-3-012"
  have hroot : "0-3-012".toList.takeWhile (· ≠ '-') = ['0'] := by decide +kernel
  have hrefused : ofText "0-3-012" = .error (.invalidStep "0-3-012" "012") := by decide +kernel
  have hbroken : ¬ IsPathText "0-3-012".toList := by
    rw [← hgrammar, hrefused]
    simp
  exact ⟨hwritten, (hsteps _ _ hwritten hpath hwords).1, by decide, hroot, hbroken,
    hfault (by decide) hroot hbroken⟩

end WrittenPath

end SyntaxOutline
