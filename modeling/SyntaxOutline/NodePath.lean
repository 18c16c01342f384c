import SyntaxOutline.Text.Numeral

/-! # Paths of nodes

A node of a tree is named by its path: the ordinals of the children taken on the way down from the
root. Ancestry is the proper prefix relation on paths. The order on paths is document order: a node
comes before its descendants, and those before the next sibling. -/
namespace SyntaxOutline

structure NodePath where
  steps : List Nat
deriving DecidableEq, Repr

namespace NodePath

instance : LT NodePath := ⟨fun p q => p.steps < q.steps⟩

instance : DecidableLT NodePath := fun p q => inferInstanceAs (Decidable (p.steps < q.steps))

def root : NodePath := ⟨[]⟩

def child (p : NodePath) (ordinal : Nat) : NodePath := ⟨p.steps ++ [ordinal]⟩

def isRoot (p : NodePath) : Bool := p.steps.isEmpty

def parent? (p : NodePath) : Option NodePath :=
  if p.isRoot then none else some ⟨p.steps.dropLast⟩

/-- Number of steps below the root. -/
def depth (p : NodePath) : Nat := p.steps.length

/-- The steps that can be child ordinals: one beyond the word limit is passed over. -/
def ordinals (p : NodePath) : List Nat := p.steps.filter (· < Text.wordLimit)

/-- Place of the node among its siblings. -/
def ordinal? (p : NodePath) : Option Nat := p.steps.getLast?.filter (· < Text.wordLimit)

/-- Whether the second path leads through the first one and on. -/
def isAncestorOf (p q : NodePath) : Bool :=
  p.steps.isPrefixOf q.steps && p.depth < q.depth

/-- The nodes passed on the way down, from the root to the parent. -/
def ancestors (p : NodePath) : List NodePath :=
  (List.range p.depth).map fun n => ⟨p.steps.take n⟩

theorem lt_def {p q : NodePath} : p < q ↔ p.steps < q.steps := Iff.rfl

theorem lt_irrefl (p : NodePath) : ¬ p < p := List.lt_irrefl p.steps

theorem lt_trans {p q r : NodePath} (hpq : p < q) (hqr : q < r) : p < r :=
  List.lt_trans hpq hqr

theorem lt_of_not_lt {p q : NodePath} (h : ¬ p < q) (hne : p ≠ q) : q < p := by
  obtain ⟨ps⟩ := p
  obtain ⟨qs⟩ := q
  rcases List.le_iff_lt_or_eq.1 (List.not_lt.1 h) with hlt | rfl
  · exact hlt
  · exact absurd rfl hne

theorem ordinals_eq_steps {p : NodePath} (h : ∀ step ∈ p.steps, step < Text.wordLimit) :
    p.ordinals = p.steps := by
  refine List.filter_eq_self.2 fun step hstep => ?_
  simpa using h step hstep

theorem parent?_child (p : NodePath) (ordinal : Nat) : (p.child ordinal).parent? = some p := by
  simp [parent?, child, isRoot]

theorem depth_child (p : NodePath) (ordinal : Nat) : (p.child ordinal).depth = p.depth + 1 := by
  simp [depth, child]

theorem length_ancestors (p : NodePath) : p.ancestors.length = p.depth := by simp [ancestors]

theorem isAncestorOf_iff {p q : NodePath} :
    p.isAncestorOf q = true ↔ p.steps <+: q.steps ∧ p.depth < q.depth := by
  simp [isAncestorOf]

end NodePath

end SyntaxOutline
