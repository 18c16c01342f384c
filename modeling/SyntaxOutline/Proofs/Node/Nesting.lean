import Mathlib.Data.List.Chain
import SyntaxOutline.Node.SpanCheck
import SyntaxOutline.Proofs.Node.Descent

/-! # Nested spans

The check of the spans compares each node with its children, and each child with the one right
before it. A tree that passes is nested throughout: what holds of a child carries over to all nodes
below, and what holds between neighbours to all pairs, because no span among them is inverted. -/
namespace SyntaxOutline

namespace Span

/-- The second span starts no earlier than the first one ends. -/
def Precedes (s t : Span) : Prop := s.stop ≤ t.start

theorem contains_refl (s : Span) : s.contains s = true :=
  contains_iff.2 ⟨Nat.le_refl _, Nat.le_refl _⟩

theorem contains_trans {s t u : Span} (hst : s.contains t = true) (htu : t.contains u = true) :
    s.contains u = true := by
  rw [contains_iff] at *
  omega

theorem covers_of_contains {s t : Span} {offset : Nat} (h : s.contains t = true)
    (ht : t.covers offset = true) : s.covers offset = true := by
  rw [contains_iff] at h
  rw [covers_iff] at *
  omega

/-- Neighbours in order are all in order, for spans that are not inverted. -/
theorem pairwise_precedes {spans : List Span} (hchain : spans.IsChain Precedes)
    (hupright : ∀ s ∈ spans, s.start ≤ s.stop) : spans.Pairwise Precedes := by
  induction spans with
  | nil => exact .nil
  | cons s rest ih =>
    have hrest := ih hchain.tail fun t ht => hupright t (List.mem_cons_of_mem s ht)
    refine List.pairwise_cons.2 ⟨fun u hu => ?_, hrest⟩
    cases rest with
    | nil => cases hu
    | cons t rest =>
      have hst : s.stop ≤ t.start := (List.isChain_cons_cons.1 hchain).1
      have ht : t.start ≤ t.stop := hupright t (by simp)
      rcases List.mem_cons.1 hu with rfl | hu
      · exact hst
      · have htu : t.stop ≤ u.start := (List.pairwise_cons.1 hrest).1 u hu
        exact Nat.le_trans hst (Nat.le_trans ht htu)

end Span

namespace Node

variable {n m : Node} {path : NodePath} {pending : List (Node × NodePath)}

/-- What the check asks of a node and its children. -/
structure Orderly (n : Node) : Prop where
  upright : n.span.start ≤ n.span.stop
  inside : ∀ c ∈ n.children, n.span.contains c.span = true
  ordered : (n.children.map (·.span)).IsChain Span.Precedes

/-- No span of the tree is inverted, each lies inside those of all nodes above, and of any two
siblings the later one starts no earlier than the other one ends. -/
structure Nested (n : Node) : Prop where
  upright : n.All fun m => m.span.start ≤ m.span.stop
  inside : n.All fun m => m.All fun k => m.span.contains k.span = true
  ordered : n.All fun m => m.children.Pairwise fun b c => b.span.stop ≤ c.span.start

theorem contains_of_orderly (h : n.All Orderly) : n.All fun k => n.span.contains k.span = true := by
  induction h with
  | @intro n here _ ih =>
    exact .intro n.span.contains_refl fun c hc =>
      (ih c hc).imp fun _ hk => Span.contains_trans (here.inside c hc) hk

theorem pairwise_of_orderly (h : n.All Orderly) :
    n.children.Pairwise fun b c => b.span.stop ≤ c.span.start := by
  refine List.pairwise_map.1 (Span.pairwise_precedes h.here.ordered fun s hs => ?_)
  obtain ⟨c, hc, rfl⟩ := List.mem_map.1 hs
  exact (h.of_mem hc).here.upright

theorem Nested.orderly_follow (h : n.Nested) {steps : List Nat} (hm : n.follow? steps = some m) :
    m.Orderly where
  upright := (h.upright.follow hm).here
  inside := fun _ hc => ((h.inside.follow hm).here.of_mem hc).here
  ordered := (List.pairwise_map.2 (h.ordered.follow hm).here).isChain

/-- What is asked of each node and its children makes the whole tree nested. -/
theorem all_orderly_iff_nested : n.All Orderly ↔ n.Nested := by
  constructor
  · intro h
    exact
      { upright := h.imp fun _ hm => hm.upright
        inside := h.subtrees.imp fun _ => contains_of_orderly
        ordered := h.subtrees.imp fun _ => pairwise_of_orderly }
  · intro h
    exact all_iff_follow.2 fun _ _ => h.orderly_follow

theorem siblingFault?_eq_none_iff {parent : Span} {previous : Option Span}
    {siblings : List (Node × NodePath)} :
    siblingFault? parent previous siblings = none ↔
      (∀ c ∈ siblings, parent.contains c.1.span = true) ∧
        (previous.toList ++ siblings.map (·.1.span)).IsChain Span.Precedes := by
  induction siblings generalizing previous with
  | nil => cases previous <;> simp [siblingFault?]
  | cons first rest ih =>
    obtain ⟨child, path⟩ := first
    rw [List.forall_mem_cons]
    cases previous with
    | none =>
      by_cases hinside : parent.contains child.span = true
      · simp [siblingFault?, hinside, ih]
      · simp [siblingFault?, hinside]
    | some before =>
      have hprecedes : before.Precedes child.span ↔ ¬ child.span.start < before.stop :=
        Nat.not_lt.symm
      by_cases hinside : parent.contains child.span = true
      · by_cases hlt : child.span.start < before.stop
        · simp [siblingFault?, hinside, hlt, hprecedes]
        · simp [siblingFault?, hinside, hlt, hprecedes, ih]
      · simp [siblingFault?, hinside]

theorem faultAt?_eq_none_iff : n.faultAt? path = none ↔ n.Orderly := by
  have hinside : (∀ c ∈ n.childrenAt path, n.span.contains c.1.span = true) ↔
      ∀ c ∈ n.children, n.span.contains c.span = true :=
    forall_mem_childrenAt (P := fun c => n.span.contains c.span = true)
  have hspans : (n.childrenAt path).map (·.1.span) = n.children.map (·.span) := by
    rw [← n.map_fst_childrenAt path, List.map_map]
    rfl
  rw [faultAt?]
  split
  next hinverted =>
    exact iff_of_false (by simp) fun h => Nat.not_le_of_lt hinverted h.upright
  next hupright =>
    rw [siblingFault?_eq_none_iff, hinside, hspans]
    exact ⟨fun h => ⟨Nat.le_of_not_lt hupright, h.1, h.2⟩, fun h => ⟨h.inside, h.ordered⟩⟩

/-- The stack is worked off without a fault just when all trees on it are in order. -/
theorem firstFault?_eq_none_iff :
    firstFault? pending = none ↔ ∀ p ∈ pending, p.1.All Orderly := by
  fun_induction firstFault? pending with
  | case1 => simp
  | case2 n path rest fault hfault =>
    have hn : ¬ n.All Orderly := fun h => by
      rw [faultAt?_eq_none_iff.2 h.here] at hfault
      cases hfault
    simp [hn]
  | case3 n path rest hnone ih =>
    have hchildren : (∀ c ∈ n.childrenAt path, c.1.All Orderly) ↔
        ∀ c ∈ n.children, c.All Orderly := forall_mem_childrenAt
    rw [ih, List.forall_mem_append, List.forall_mem_cons, all_iff,
      and_iff_right (faultAt?_eq_none_iff.1 hnone), ← hchildren]
    simp only [List.mem_reverse]

theorem spanFault?_eq_none_iff : n.spanFault? = none ↔ n.Nested := by
  rw [spanFault?, firstFault?_eq_none_iff, List.forall_mem_singleton, all_orderly_iff_nested]

end Node

end SyntaxOutline
