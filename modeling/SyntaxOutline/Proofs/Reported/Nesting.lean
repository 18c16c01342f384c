import SyntaxOutline.Proofs.Node.SpanFault
import SyntaxOutline.Proofs.Reported.RoundTrip

/-! # Nesting of reported positions

Counting positions from a base on stops at zero and never puts them in another order. So a report
whose positions are nested becomes a nested tree, whatever the base is. The end of a span is lifted
to its start, and so no node of a rebased tree is inverted, nested or not. -/
namespace SyntaxOutline

namespace ReportedNode

variable {r : ReportedNode} {base : Nat}

theorem size_le_sizes {c : ReportedNode} {reports : List ReportedNode} (h : c ∈ reports) :
    c.size ≤ sizes reports := by
  induction reports with
  | nil => cases h
  | cons first rest ih =>
    rw [sizes]
    rcases List.mem_cons.1 h with heq | hrest
    · rw [heq]
      omega
    · have hle := ih hrest
      omega

theorem size_lt_of_mem {c : ReportedNode} (h : c ∈ r.childList) : c.size < r.size := by
  have hle := size_le_sizes h
  rw [size_eq r]
  omega

/-- A statement on all reports, from its truth at the reported children. -/
theorem induction {motive : ReportedNode → Prop}
    (step : ∀ r : ReportedNode, (∀ c ∈ r.childList, motive c) → motive r) (r : ReportedNode) :
    motive r :=
  step r fun c _h => induction step c
termination_by r.size
decreasing_by exact size_lt_of_mem _h

/-- The reported positions are in order at each node, among its children and below. -/
inductive Nested : ReportedNode → Prop
  | intro {r : ReportedNode} (upright : r.start ≤ r.stop)
      (inside : ∀ c ∈ r.childList, r.start ≤ c.start ∧ c.stop ≤ r.stop)
      (ordered : r.childList.IsChain fun b c => b.stop ≤ c.start)
      (below : ∀ c ∈ r.childList, c.Nested) : r.Nested

theorem Nested.upright (h : r.Nested) : r.start ≤ r.stop := by
  cases h with
  | intro upright _ _ _ => exact upright

theorem toNode_eq (r : ReportedNode) (base : Nat) :
    r.toNode base = r.rebased base (r.childList.map (·.toNode base)) := by
  simp only [toNode_eq_rebase]
  exact rebase_eq base r

theorem span_toNode (r : ReportedNode) (base : Nat) : (r.toNode base).span = r.span base := by
  rw [toNode_eq]
  rfl

theorem children_toNode (r : ReportedNode) (base : Nat) :
    (r.toNode base).children = r.childList.map (·.toNode base) := by
  rw [toNode_eq]
  rfl

theorem mem_children_toNode {n : Node} :
    n ∈ (r.toNode base).children ↔ ∃ c ∈ r.childList, c.toNode base = n := by
  rw [children_toNode, List.mem_map]

theorem start_le_stop_span (r : ReportedNode) (base : Nat) :
    (r.span base).start ≤ (r.span base).stop :=
  Nat.le_max_right _ _

/-- The end of an upright report needs no lifting. -/
theorem Nested.stop_span (h : r.Nested) (base : Nat) : (r.span base).stop = r.stop - base :=
  Nat.max_eq_left (Nat.sub_le_sub_right h.upright base)

theorem upright_toNode (r : ReportedNode) (base : Nat) :
    (r.toNode base).All fun m => m.span.start ≤ m.span.stop := by
  induction r using ReportedNode.induction with
  | step r ih =>
    refine .intro ?_ fun n hn => ?_
    · rw [span_toNode]
      exact start_le_stop_span r base
    · obtain ⟨c, hc, rfl⟩ := mem_children_toNode.1 hn
      exact ih c hc

theorem contains_span {c : ReportedNode} (hr : r.Nested) (hc : c.Nested)
    (h : r.start ≤ c.start ∧ c.stop ≤ r.stop) :
    (r.span base).contains (c.span base) = true := by
  rw [Span.contains_iff, hr.stop_span, hc.stop_span]
  exact ⟨Nat.sub_le_sub_right h.1 base, Nat.sub_le_sub_right h.2 base⟩

theorem precedes_span {b c : ReportedNode} (hb : b.Nested) (h : b.stop ≤ c.start) :
    (b.span base).Precedes (c.span base) := by
  rw [Span.Precedes, hb.stop_span]
  exact Nat.sub_le_sub_right h base

/-- Positions in order stay in order. -/
theorem orderly_toNode (h : r.Nested) (base : Nat) : (r.toNode base).All Node.Orderly := by
  induction h with
  | @intro r upright inside ordered below ih =>
    have hr : r.Nested := .intro upright inside ordered below
    refine .intro ⟨?_, fun n hn => ?_, ?_⟩ fun n hn => ?_
    · rw [span_toNode]
      exact start_le_stop_span r base
    · obtain ⟨c, hc, rfl⟩ := mem_children_toNode.1 hn
      rw [span_toNode, span_toNode]
      exact contains_span hr (below c hc) (inside c hc)
    · rw [children_toNode, List.map_map, List.isChain_map]
      refine ordered.imp_of_mem_imp fun b c hb _ hbc => ?_
      rw [Function.comp_apply, Function.comp_apply, span_toNode, span_toNode]
      exact precedes_span (below b hb) hbc
    · obtain ⟨c, hc, rfl⟩ := mem_children_toNode.1 hn
      exact ih c hc

end ReportedNode

/-- A tree without inverted spans is never reported to have one. -/
theorem Node.spanFault?_ne_inverted {n : Node} (h : n.All fun m => m.span.start ≤ m.span.stop)
    (path : NodePath) (span : Span) : n.spanFault? ≠ some (.inverted path span) := by
  intro hfault
  have hroot : ∀ p ∈ [(n, NodePath.root)], n.follow? p.2.steps = some p.1 := by
    rw [List.forall_mem_singleton]
    rfl
  obtain ⟨m, q, hm, hat⟩ := exists_faultAt?_of_firstFault? hroot hfault
  have hupright := (h.follow hm).here
  cases shows_of_faultAt? hat with
  | inverted hspan => exact Nat.not_le_of_lt hspan hupright

theorem exists_toNode_of_decodeTree {text detail : String} {base : Nat} {tree : Node}
    (h : decodeTree text detail base = .ok tree) : ∃ r : ReportedNode, tree = r.toNode base := by
  rw [decodeTree] at h
  split at h
  next => cases h
  next =>
    split at h
    next => cases h
    next report _ => exact ⟨report, (Except.ok.inj h).symm⟩

namespace ReportedNode

/-- The conversion of a report keeps its shape and counts the positions from the base on. No node of
a decoded tree is inverted, and nested positions make a tree that passes the check of the spans. -/
theorem toNode_rebases (r : ReportedNode) (base : Nat) :
    (r.toNode base =
        { kind := r.kind
          span := ⟨r.start - base, max (r.stop - base) (r.start - base)⟩
          children := (r.children.getD []).map (·.toNode base)
          attributes := r.attributes.getD ∅
          fieldName := if r.fieldName = some "" then none else r.fieldName } ∧
        ((r.toNode base).span.start : Int) = max (r.start - base : Int) 0 ∧
        ((r.toNode base).span.stop : Int) =
          max (max (r.stop - base : Int) 0) (r.toNode base).span.start) ∧
      (((r.toNode base).All fun m => m.span.start ≤ m.span.stop) ∧
        (∀ path span, (r.toNode base).spanFault? ≠ some (.inverted path span)) ∧
        ∀ text detail tree, decodeTree text detail base = .ok tree →
          ∀ path span, tree.spanFault? ≠ some (.inverted path span)) ∧
      (r.Nested → (r.toNode base).spanFault? = none) := by
  refine ⟨⟨?_, ?_, ?_⟩, ⟨upright_toNode r base, ?_, ?_⟩, ?_⟩
  · have hname : r.fieldName.filter (· ≠ "") =
        if r.fieldName = some "" then none else r.fieldName := by
      cases r.fieldName with
      | none => rfl
      | some name => by_cases h : name = "" <;> simp [h]
    rw [toNode_eq, rebased, hname]
    rfl
  · simp only [span_toNode, span]
    omega
  · simp only [span_toNode, span]
    omega
  · exact Node.spanFault?_ne_inverted (upright_toNode r base)
  · intro text detail tree h
    obtain ⟨report, rfl⟩ := exists_toNode_of_decodeTree h
    exact Node.spanFault?_ne_inverted (upright_toNode report base)
  · intro h
    rw [Node.spanFault?_eq_none_iff, ← Node.all_orderly_iff_nested]
    exact orderly_toNode h base

/-- A base between the positions of the children. -/
theorem toNode_rebases_clamped :
    let r : ReportedNode :=
      { kind := "File", start := 1, stop := 9
        children :=
          some [{ kind := "Ident", start := 2, stop := 4 },
            { kind := "FuncDecl", start := 4, stop := 8 }] }
    r.Nested ∧ (r.toNode 3).spanFault? = none ∧
      decodeTree (Json.render (r.toJson fun _ => .null)) "" 3 = .ok (r.toNode 3) ∧
      (r.toNode 3).spanFault? ≠ some (.inverted .root ⟨0, 6⟩) := by
  intro r
  have hleaf : ∀ c ∈ r.childList, c.childList = [] := by simp [r, childList]
  have hbelow : ∀ c ∈ r.childList, c.Nested := by
    intro c hc
    have hupright : c.start ≤ c.stop := by
      revert c
      simp [r, childList]
    exact .intro hupright (by simp [hleaf c hc]) (by simp [hleaf c hc]) (by simp [hleaf c hc])
  have hnested : r.Nested :=
    .intro (by decide) (by simp [r, childList]) (by simp [r, childList]) hbelow
  have hwritable : r.Writable := by
    refine .intro (by decide) (by decide) (by simp [r]) fun c hc => ?_
    have hwords : c.start < Text.wordLimit ∧ c.stop < Text.wordLimit := by
      revert c
      simp [r, childList, Text.wordLimit]
    have hplain : c.attributes = none := by
      revert c
      simp [r, childList]
    exact .intro hwords.1 hwords.2 (by simp [hplain]) (by simp [hleaf c hc])
  have hdecoded : decodeTree (Json.render (r.toJson fun _ => .null)) "" 3 = .ok (r.toNode 3) :=
    decodeTree_of_parse_toJson hwritable (Json.parse_render _) "" 3
  have hrebases := toNode_rebases r 3
  exact ⟨hnested, hrebases.2.2 hnested, hdecoded,
    hrebases.2.1.2.2 _ "" (r.toNode 3) hdecoded .root ⟨0, 6⟩⟩

end ReportedNode

end SyntaxOutline
