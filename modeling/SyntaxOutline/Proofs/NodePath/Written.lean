import SyntaxOutline.NodePath.Written
import SyntaxOutline.Proofs.NodePath.Order
import SyntaxOutline.Proofs.NodePath.Text

/-! # Written paths and the paths they stand for

What is read off the text of a path is the same as what its steps say. A path is the root or a child,
and the text of a child is that of its parent, a hyphen and a numeral, in which there is no hyphen;
so the last hyphen divides the parent from the ordinal. -/
namespace SyntaxOutline

def NodePath.written (p : NodePath) : WrittenPath := ⟨p.text⟩

namespace WrittenPath

open NodePath

theorem written_root : NodePath.root.written = root := rfl

theorem written_child (p : NodePath) (ordinal : Nat) :
    (p.child ordinal).written = p.written.child ordinal := by
  rw [written, text_child]
  rfl

theorem written_injective : Function.Injective NodePath.written := by
  intro p q h
  exact text_injective (congrArg WrittenPath.text h)

theorem toList_child (w : WrittenPath) (ordinal : Nat) :
    (w.child ordinal).text.toList = w.text.toList ++ '-' :: Nat.toDigits 10 ordinal := by
  simp [child, Nat.toString_eq_repr]

theorem hyphen_not_mem_decimal (n : Nat) : '-' ∉ Nat.toDigits 10 n :=
  Text.not_mem_decimal (by decide) n

theorem cutLast_child (w : WrittenPath) (ordinal : Nat) :
    Text.cutLast '-' (w.child ordinal).text.toList =
      some (w.text.toList, Nat.toDigits 10 ordinal) := by
  rw [toList_child]
  exact Text.cutLast_append (hyphen_not_mem_decimal ordinal) _

theorem parent?_child (w : WrittenPath) (ordinal : Nat) :
    (w.child ordinal).parent? = some w := by
  rw [parent?, cutLast_child]
  simp

theorem ordinal?_child (w : WrittenPath) (ordinal : Nat) :
    (w.child ordinal).ordinal? = (some ordinal).filter (· < Text.wordLimit) := by
  rw [ordinal?, cutLast_child, Option.bind_some, Text.readWord_decimal]

theorem depth_child (w : WrittenPath) (ordinal : Nat) :
    (w.child ordinal).depth = w.depth + 1 := by
  have hnone : (Nat.toDigits 10 ordinal).count '-' = 0 :=
    List.count_eq_zero.2 (hyphen_not_mem_decimal ordinal)
  rw [depth, toList_child, List.count_append, List.count_cons_self, hnone]
  rfl

theorem parent?_written (p : NodePath) : p.written.parent? = p.parent?.map written := by
  induction p using NodePath.induction with
  | root => rfl
  | child p ordinal ih =>
    rw [written_child, parent?_child, NodePath.parent?_child]
    rfl

theorem ordinal?_written (p : NodePath) : p.written.ordinal? = p.ordinal? := by
  induction p using NodePath.induction with
  | root => rfl
  | child p ordinal ih =>
    rw [written_child, ordinal?_child]
    simp [NodePath.ordinal?, NodePath.child]

theorem depth_written (p : NodePath) : p.written.depth = p.depth := by
  induction p using NodePath.induction with
  | root => rfl
  | child p ordinal ih => rw [written_child, depth_child, NodePath.depth_child, ih]

theorem isRoot_written (p : NodePath) : p.written.isRoot = p.isRoot := by
  induction p using NodePath.induction with
  | root => rfl
  | child p ordinal ih =>
    rw [written_child, isRoot, toList_child]
    simp [NodePath.isRoot, NodePath.child]

theorem segments_written (p : NodePath) : p.written.segments = p.parts := p.splitOn_text

theorem ordinals_written (p : NodePath) : p.written.ordinals = p.ordinals := by
  have hread : Text.readWord ∘ Nat.toDigits 10 = Option.guard (· < Text.wordLimit) :=
    funext fun n => (Text.readWord_decimal n).trans (Option.filter_some)
  rw [ordinals, segments_written, parts, List.tail_cons, List.filterMap_map, hread,
    List.filterMap_eq_filter]
  rfl

/-- The steps of a path, taken from the root, lead to its text. -/
theorem foldl_child_written (p : NodePath) : p.steps.foldl child root = p.written := by
  induction p using NodePath.induction with
  | root => rfl
  | child p ordinal ih =>
    rw [written_child, NodePath.child, List.foldl_append, ih]
    rfl

end WrittenPath

end SyntaxOutline
