import SyntaxOutline.Reported.Node

/-! # Rebasing reports

The conversion of a report, which keeps the reports that wait for each other on a stack, converts a
report and its children in place. It neither adds nor loses nodes. -/
namespace SyntaxOutline.ReportedNode

mutual

/-- The node of a report, with its positions counted from zero, over the nodes of its children. -/
def rebase (base : Nat) : ReportedNode → Node
  | ⟨kind, start, stop, children, attributes, fieldName⟩ =>
    rebased ⟨kind, start, stop, children, attributes, fieldName⟩ base (rebaseOption base children)

def rebaseOption (base : Nat) : Option (List ReportedNode) → List Node
  | none => []
  | some children => rebaseAll base children

def rebaseAll (base : Nat) : List ReportedNode → List Node
  | [] => []
  | child :: rest => child.rebase base :: rebaseAll base rest

end

theorem rebaseAll_eq_map (base : Nat) (reports : List ReportedNode) :
    rebaseAll base reports = reports.map (rebase base) := by
  induction reports with
  | nil => rfl
  | cons child rest ih => simp [rebaseAll, ih]

theorem rebase_eq (base : Nat) (r : ReportedNode) :
    r.rebase base = r.rebased base (r.childList.map (rebase base)) := by
  obtain ⟨kind, start, stop, children, attributes, fieldName⟩ := r
  cases children with
  | none => rfl
  | some children => simp [rebase, rebaseOption, rebaseAll_eq_map, childList]

namespace Opened

/-- The node of an open report, once the children that wait are converted. -/
def completed (base : Nat) (o : Opened) : Node :=
  o.report.rebased base (o.converted.reverse ++ o.waiting.map (rebase base))

theorem completed_ofReport (base : Nat) (r : ReportedNode) :
    (ofReport r).completed base = r.rebase base := by
  simp [completed, ofReport, rebase_eq]

end Opened

/-- The outermost node, once a node is put into the reports that are open around it. -/
def enclose (base : Nat) : Node → List Opened → Node
  | node, [] => node
  | node, parent :: outer =>
    enclose base (Opened.completed base { parent with converted := node :: parent.converted }) outer

theorem completed_of_waiting {base : Nat} {o : Opened} {child : ReportedNode}
    {waiting : List ReportedNode} (h : o.waiting = child :: waiting) :
    Opened.completed base ⟨o.report, child.rebase base :: o.converted, waiting⟩ =
      o.completed base := by
  simp [Opened.completed, h]

theorem close_eq_completed {base : Nat} {o : Opened} (h : o.waiting = []) :
    o.close base = o.completed base := by
  simp [Opened.close, Opened.completed, h]

/-- The stack of open reports is worked off from the innermost one outwards. -/
theorem finish_eq_enclose (base : Nat) (current : Opened) (outer : List Opened) :
    finish base current outer = enclose base (current.completed base) outer := by
  fun_induction finish base current outer with
  | case1 current outer child waiting hwaiting ih =>
    rw [ih, Opened.completed_ofReport, enclose, completed_of_waiting hwaiting]
  | case2 current hwaiting => rw [close_eq_completed hwaiting, enclose]
  | case3 current hwaiting parent outer ih => rw [ih, close_eq_completed hwaiting, enclose]

theorem toNode_eq_rebase (r : ReportedNode) (base : Nat) : r.toNode base = r.rebase base := by
  rw [toNode, finish_eq_enclose, enclose, Opened.completed_ofReport]

mutual

theorem size_rebase (base : Nat) : ∀ r : ReportedNode, (r.rebase base).size = r.size
  | ⟨_, _, _, children, _, _⟩ => by
    rw [rebase, rebased, Node.size, size, sizes_rebaseOption base children]

theorem sizes_rebaseOption (base : Nat) :
    ∀ children, Node.sizes (rebaseOption base children) = optionSize children
  | none => rfl
  | some children => by rw [rebaseOption, optionSize, sizes_rebaseAll base children]

theorem sizes_rebaseAll (base : Nat) :
    ∀ children, Node.sizes (rebaseAll base children) = sizes children
  | [] => rfl
  | child :: rest => by
    rw [rebaseAll, Node.sizes, sizes, size_rebase base child, sizes_rebaseAll base rest]

end

end SyntaxOutline.ReportedNode
