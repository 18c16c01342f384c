import Mathlib.Data.List.Chain
import SyntaxOutline.Proofs.NodePath.Grammar

/-! # Ancestry of written paths

One path leads through another one if its text goes on with a hyphen where the other one ends, if
its parts go on where those of the other one end, or if cutting parts off its end leads to the other
one. These are the same, because a part holds no hyphen: `0-1` is no ancestor of `0-12`. -/
namespace SyntaxOutline.WrittenPath

variable {v w : WrittenPath}

theorem isAncestorOf_iff_append :
    v.isAncestorOf w = true ↔ ∃ rest, w.text.toList = v.text.toList ++ '-' :: rest := by
  simp only [isAncestorOf, Bool.and_eq_true, decide_eq_true_eq, List.isPrefixOf_iff_prefix,
    beq_iff_eq]
  constructor
  · rintro ⟨⟨_, more, hmore⟩, hnext⟩
    rw [← hmore, List.drop_left] at hnext
    obtain ⟨rest, hrest⟩ := List.head?_eq_some_iff.1 hnext
    exact ⟨rest, by rw [← hmore, hrest]⟩
  · rintro ⟨rest, hrest⟩
    have htext : w.text = v.text ++ String.ofList ('-' :: rest) := by
      apply String.toList_inj.1
      rw [hrest, String.toList_append, String.toList_ofList]
    have hpos : (String.ofList ('-' :: rest)).utf8ByteSize ≠ 0 := by
      simp [String.utf8ByteSize_eq_zero_iff]
    refine ⟨⟨?_, ?_⟩, ?_⟩
    · rw [htext, String.utf8ByteSize_append]
      omega
    · rw [hrest]
      exact List.prefix_append _ _
    · rw [hrest, List.drop_left]
      rfl

theorem intercalate_segments (w : WrittenPath) : ['-'].intercalate w.segments = w.text.toList :=
  List.intercalate_splitOn '-'

theorem segments_injective : Function.Injective segments := by
  intro v w h
  have htext : v.text.toList = w.text.toList := by
    rw [← intercalate_segments, h, intercalate_segments]
  cases v
  cases w
  exact congrArg WrittenPath.mk (String.toList_inj.1 htext)

/-- The text goes on with a hyphen just when the parts go on. -/
theorem isAncestorOf_iff_segments :
    v.isAncestorOf w = true ↔ v.segments <+: w.segments ∧ v.segments ≠ w.segments := by
  rw [isAncestorOf_iff_append]
  constructor
  · rintro ⟨rest, hrest⟩
    have hsegments : w.segments = v.segments ++ rest.splitOn '-' := by
      rw [segments, hrest, List.splitOn_append_cons_self]
      rfl
    rw [hsegments]
    refine ⟨List.prefix_append _ _, fun heq => ?_⟩
    exact List.splitOn_ne_nil '-' rest (List.self_eq_append_right.1 heq)
  · rintro ⟨⟨below, hbelow⟩, hne⟩
    have hnonempty : below ≠ [] := by
      rintro rfl
      rw [List.append_nil] at hbelow
      exact hne hbelow
    have hparts : v.segments ≠ [] := List.splitOn_ne_nil _ _
    refine ⟨['-'].intercalate below, ?_⟩
    rw [← intercalate_segments w, ← hbelow, NodePath.intercalate_append _ hparts hnonempty,
      intercalate_segments]
    simp

theorem ancestors_root : root.ancestors = [] := by
  rw [ancestors, ascent]
  rfl

theorem ancestors_child (w : WrittenPath) (ordinal : Nat) :
    (w.child ordinal).ancestors = w.ancestors ++ [w] := by
  rw [ancestors, ascent]
  split
  next h =>
    rw [parent?_child] at h
    cases h
  next parent h =>
    rw [parent?_child, Option.some.injEq] at h
    rw [← h, List.reverse_cons, ancestors]

theorem getLast?_ancestors (w : WrittenPath) : w.ancestors.getLast? = w.parent? := by
  rw [ancestors, List.getLast?_reverse, ascent]
  split
  next h => rw [h]; rfl
  next parent h => rw [h]; rfl

/-- The texts on the way up are those of the nodes on the way up. -/
theorem ancestors_written (p : NodePath) :
    p.written.ancestors = p.ancestors.map NodePath.written := by
  induction p using NodePath.induction with
  | root => exact ancestors_root
  | child p ordinal ih =>
    rw [written_child, ancestors_child, NodePath.ancestors_child, ih, List.map_append]
    rfl

theorem toDigits_injective : Function.Injective (Nat.toDigits 10) := by
  intro m n h
  have hvalue := congrArg (Nat.ofDigitChars 10 · 0) h
  simpa using hvalue

theorem segments_prefix_iff {p q : NodePath} :
    p.written.segments <+: q.written.segments ↔ p.steps <+: q.steps := by
  rw [segments_written, segments_written, NodePath.parts, NodePath.parts, List.prefix_cons_inj,
    List.prefix_map_iff_of_injective toDigits_injective]

/-- On written paths the comparison of texts is the comparison of steps. -/
theorem isAncestorOf_written (p q : NodePath) :
    p.written.isAncestorOf q.written = p.isAncestorOf q := by
  apply Bool.eq_iff_iff.2
  rw [isAncestorOf_iff_segments, segments_prefix_iff, NodePath.prefix_steps_iff]
  constructor
  · rintro ⟨rfl | hancestor, hne⟩
    · exact absurd rfl hne
    · exact hancestor
  · intro hancestor
    refine ⟨.inr hancestor, fun heq => ?_⟩
    have hlt := (NodePath.isAncestorOf_iff.1 hancestor).2
    rw [written_injective (segments_injective heq)] at hlt
    exact Nat.lt_irrefl _ hlt

theorem mem_ancestors_written_iff {p q : NodePath} :
    p.written ∈ q.written.ancestors ↔ p.isAncestorOf q = true := by
  rw [ancestors_written, List.mem_map_of_injective written_injective, NodePath.mem_ancestors_iff]

theorem head?_ancestors_append (p : NodePath) :
    (p.written.ancestors ++ [p.written]).head? = some root := by
  induction p using NodePath.induction with
  | root => simp [written_root, ancestors_root]
  | child p ordinal ih =>
    rw [written_child, ancestors_child, List.head?_append, ih]
    rfl

theorem isChain_ancestors_written (p : NodePath) :
    p.written.ancestors.IsChain fun v w => w.parent? = some v := by
  induction p using NodePath.induction with
  | root => simp [written_root, ancestors_root]
  | child p ordinal ih =>
    rw [written_child, ancestors_child, List.isChain_append]
    refine ⟨ih, List.isChain_singleton _, fun v hv w hw => ?_⟩
    obtain rfl : p.written = w := by simpa using hw
    rw [← getLast?_ancestors]
    exact hv

/-- On the texts that are read as paths, the test by the text, the way up and the parts agree. The
way up starts at the root, takes one step at a time and ends at the parent, and a step down puts the
path at its end. -/
theorem ancestry_of_ofText {a b : String} {v w : WrittenPath} (ha : ofText a = .ok v)
    (hb : ofText b = .ok w) :
    ((v.isAncestorOf w = true ↔ v ∈ w.ancestors) ∧
        (v ∈ w.ancestors ↔ v.segments <+: w.segments ∧ v.segments ≠ w.segments)) ∧
      (w.ancestors.length = w.depth ∧ (w.ancestors ≠ [] → w.ancestors.head? = some root) ∧
        (w.ancestors.IsChain fun above below => below.parent? = some above) ∧
        w.ancestors.getLast? = w.parent?) ∧
      ∀ ordinal, (w.child ordinal).parent? = some w ∧
        (ordinal < Text.wordLimit → (w.child ordinal).ordinal? = some ordinal) ∧
        (w.child ordinal).ancestors = w.ancestors ++ [w] := by
  obtain ⟨_, p, rfl⟩ := ofText_eq_ok_iff.1 ha
  obtain ⟨_, q, rfl⟩ := ofText_eq_ok_iff.1 hb
  have hmem : p.written.isAncestorOf q.written = true ↔ p.written ∈ q.written.ancestors := by
    rw [isAncestorOf_written, mem_ancestors_written_iff]
  refine ⟨⟨hmem, ?_⟩, ⟨?_, ?_, isChain_ancestors_written q, getLast?_ancestors _⟩, ?_⟩
  · rw [← hmem, isAncestorOf_iff_segments]
  · rw [ancestors_written, List.length_map, NodePath.length_ancestors, depth_written]
  · intro hne
    have hhead := head?_ancestors_append q
    rw [List.head?_append_of_ne_nil _ hne] at hhead
    exact hhead
  · intro ordinal
    refine ⟨parent?_child _ _, fun hword => ?_, ancestors_child _ _⟩
    rw [ordinal?_child]
    simp [hword]

/-- `0-1` leads to `0-1-4`, but its text is only by chance the start of `0-12`. -/
theorem ancestry_of_ofText_nested :
    ofText "0-1" = .ok ⟨"0-1"⟩ ∧ ofText "0-1-4" = .ok ⟨"0-1-4"⟩ ∧ ofText "0-12" = .ok ⟨"0-12"⟩ ∧
      ⟨"0-1"⟩ ∈ (⟨"0-1-4"⟩ : WrittenPath).ancestors ∧
      ⟨"0-1"⟩ ∉ (⟨"0-12"⟩ : WrittenPath).ancestors := by
  have habove : ofText "0-1" = .ok ⟨"0-1"⟩ := by decide +kernel
  have hbelow : ofText "0-1-4" = .ok ⟨"0-1-4"⟩ := by decide +kernel
  have hbeside : ofText "0-12" = .ok ⟨"0-12"⟩ := by decide +kernel
  refine ⟨habove, hbelow, hbeside, ?_, ?_⟩
  · apply (ancestry_of_ofText habove hbelow).1.1.1
    decide +kernel
  · rw [← (ancestry_of_ofText habove hbeside).1.1]
    decide +kernel

end SyntaxOutline.WrittenPath
