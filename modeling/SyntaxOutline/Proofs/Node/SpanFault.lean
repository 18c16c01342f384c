import SyntaxOutline.Proofs.Node.Nesting

/-! # Reported faults

A fault that the check of the spans reports is one of the tree. Its path leads to a node that has
the span it carries, and the other span, if there is one, is that of the parent or of the sibling
right before. -/
namespace SyntaxOutline

/-- The tree has the fault: the nodes that it is about have the spans that it carries, and these are
at odds in the way that it names. -/
def SpanFault.Describes (n : Node) : SpanFault → Prop
  | inverted path span =>
    ∃ m, n.at? path = some m ∧ m.span = span ∧ span.stop < span.start
  | escapes path parent span =>
    ∃ (above : NodePath) (ordinal : Nat) (m c : Node), path = above.child ordinal ∧
      n.at? above = some m ∧ m.span = parent ∧ n.at? path = some c ∧ c.span = span ∧
      ¬ (parent.start ≤ span.start ∧ span.stop ≤ parent.stop)
  | unordered path previous span =>
    ∃ (above : NodePath) (ordinal : Nat) (b c : Node), path = above.child (ordinal + 1) ∧
      n.at? (above.child ordinal) = some b ∧ b.span = previous ∧ n.at? path = some c ∧
      c.span = span ∧ span.start < previous.stop

namespace Node

variable {n m : Node} {path : NodePath} {fault : SpanFault} {parent : Span}

/-- A fault that shows at one node: in its own span, at a child, or between two children of which
one comes right after the other. -/
inductive Shows (n : Node) (path : NodePath) : SpanFault → Prop
  | inverted (hspan : n.span.stop < n.span.start) : n.Shows path (.inverted path n.span)
  | escapes {ordinal : Nat} {c : Node} (hc : n.children[ordinal]? = some c)
      (hspan : n.span.contains c.span = false) :
      n.Shows path (.escapes (path.child ordinal) n.span c.span)
  | unordered {ordinal : Nat} {b c : Node} (hb : n.children[ordinal]? = some b)
      (hc : n.children[ordinal + 1]? = some c) (hspan : c.span.start < b.span.stop) :
      n.Shows path (.unordered (path.child (ordinal + 1)) b.span c.span)

/-- A fault among siblings: one of them is not inside the parent, or it starts before the one right
before it ends. -/
inductive ShowsAmong (parent : Span) (siblings : List (Node × NodePath)) : SpanFault → Prop
  | escapes {c : Node × NodePath} (hc : c ∈ siblings) (hspan : parent.contains c.1.span = false) :
      ShowsAmong parent siblings (.escapes c.2 parent c.1.span)
  | unordered {b c : Node × NodePath} (hbc : [b, c] <:+: siblings)
      (hspan : c.1.span.start < b.1.span.stop) :
      ShowsAmong parent siblings (.unordered c.2 b.1.span c.1.span)

theorem ShowsAmong.cons {siblings : List (Node × NodePath)} (h : ShowsAmong parent siblings fault)
    (before : Node × NodePath) : ShowsAmong parent (before :: siblings) fault := by
  cases h with
  | escapes hc hspan => exact .escapes (List.mem_cons_of_mem before hc) hspan
  | unordered hbc hspan =>
    exact .unordered (hbc.trans (List.suffix_cons before siblings).isInfix) hspan

theorem showsAmong_of_siblingFault?_after {before : Node × NodePath}
    {rest : List (Node × NodePath)}
    (h : siblingFault? parent (some before.1.span) rest = some fault) :
    ShowsAmong parent (before :: rest) fault := by
  induction rest generalizing before with
  | nil => simp [siblingFault?] at h
  | cons child rest ih =>
    rw [siblingFault?] at h
    split at h
    next hout =>
      obtain rfl := Option.some.inj h
      exact .escapes (by simp) (by simpa using hout)
    next =>
      split at h
      next hlt =>
        obtain rfl := Option.some.inj h
        have hpair : [before, child] <+: before :: child :: rest := ⟨rest, rfl⟩
        exact .unordered hpair.isInfix hlt
      next =>
        exact (ih h).cons before

theorem showsAmong_of_siblingFault? {siblings : List (Node × NodePath)}
    (h : siblingFault? parent none siblings = some fault) : ShowsAmong parent siblings fault := by
  cases siblings with
  | nil => simp [siblingFault?] at h
  | cons first rest =>
    rw [siblingFault?] at h
    split at h
    next hout =>
      obtain rfl := Option.some.inj h
      exact .escapes List.mem_cons_self (by simpa using hout)
    next => exact showsAmong_of_siblingFault?_after h

theorem neighbours_childrenAt {b c : Node × NodePath} (h : [b, c] <:+: n.childrenAt path) :
    ∃ ordinal, n.children[ordinal]? = some b.1 ∧ n.children[ordinal + 1]? = some c.1 ∧
      c.2 = path.child (ordinal + 1) := by
  obtain ⟨front, back, hsplit⟩ := h
  have hb : (n.childrenAt path)[front.length]? = some b := by simp [← hsplit]
  have hc : (n.childrenAt path)[front.length + 1]? = some c := by simp [← hsplit]
  rw [getElem?_childrenAt, Option.map_eq_some_iff] at hb hc
  obtain ⟨b, hb, rfl⟩ := hb
  obtain ⟨c, hc, rfl⟩ := hc
  exact ⟨front.length, hb, hc, rfl⟩

theorem shows_of_faultAt? (h : n.faultAt? path = some fault) : n.Shows path fault := by
  rw [faultAt?] at h
  split at h
  next hinverted =>
    obtain rfl := Option.some.inj h
    exact .inverted hinverted
  next =>
    cases showsAmong_of_siblingFault? h with
    | @escapes c hc hspan =>
      obtain ⟨ordinal, hordinal, hpath⟩ := mem_childrenAt.1 hc
      rw [hpath]
      exact .escapes hordinal hspan
    | @unordered b c hbc hspan =>
      obtain ⟨ordinal, hb, hc, hpath⟩ := neighbours_childrenAt hbc
      rw [hpath]
      exact .unordered hb hc hspan

/-- Every node that comes onto the stack is the one that its path leads to, so a fault found from
the stack shows at a node of the tree. -/
theorem exists_faultAt?_of_firstFault? {pending : List (Node × NodePath)}
    (hpending : ∀ p ∈ pending, n.follow? p.2.steps = some p.1)
    (h : firstFault? pending = some fault) :
    ∃ m path, n.follow? path.steps = some m ∧ m.faultAt? path = some fault := by
  fun_induction firstFault? pending with
  | case1 => cases h
  | case2 m path rest found hfound =>
    obtain rfl : found = fault := Option.some.inj h
    exact ⟨m, path, hpending (m, path) List.mem_cons_self, hfound⟩
  | case3 m path rest hnone ih =>
    obtain ⟨hm, hrest⟩ := List.forall_mem_cons.1 hpending
    refine ih (List.forall_mem_append.2 ⟨fun p hp => ?_, hrest⟩) h
    obtain ⟨ordinal, hchild, hpath⟩ := mem_childrenAt.1 (List.mem_reverse.1 hp)
    rw [hpath]
    exact follow?_child hm hchild

theorem Shows.describes (hfits : n.Fits) (hm : n.follow? path.steps = some m)
    (h : m.Shows path fault) : fault.Describes n := by
  have hchild : ∀ {ordinal c}, m.children[ordinal]? = some c →
      n.at? (path.child ordinal) = some c :=
    fun hc => hfits.at?_of_follow? (follow?_child hm hc)
  cases h with
  | inverted hspan => exact ⟨m, hfits.at?_of_follow? hm, rfl, hspan⟩
  | @escapes ordinal c hc hspan =>
    have hout : ¬ (m.span.start ≤ c.span.start ∧ c.span.stop ≤ m.span.stop) := by
      rw [← Span.contains_iff, hspan]
      simp
    exact ⟨path, ordinal, m, c, rfl, hfits.at?_of_follow? hm, rfl, hchild hc, rfl, hout⟩
  | @unordered ordinal b c hb hc hspan =>
    exact ⟨path, ordinal, b, c, rfl, hchild hb, rfl, hchild hc, rfl, hspan⟩

/-- A tree passes the check just when its spans are nested throughout. Otherwise the check reports a
fault that the tree has. -/
theorem spanFault?_decides_nesting (n : Node) :
    (n.spanFault? = none ↔
        (n.All fun m => m.span.start ≤ m.span.stop) ∧
        (n.All fun m => m.All fun k => m.span.start ≤ k.span.start ∧ k.span.stop ≤ m.span.stop) ∧
        n.All fun m => m.children.Pairwise fun b c => b.span.stop ≤ c.span.start) ∧
      (n.Fits → ∀ fault, n.spanFault? = some fault → fault.Describes n) := by
  constructor
  · rw [spanFault?_eq_none_iff]
    simp only [← Span.contains_iff]
    exact ⟨fun h => ⟨h.upright, h.inside, h.ordered⟩, fun h => ⟨h.1, h.2.1, h.2.2⟩⟩
  · intro hfits fault h
    have hroot : ∀ p ∈ [(n, NodePath.root)], n.follow? p.2.steps = some p.1 := by
      rw [List.forall_mem_singleton]
      rfl
    obtain ⟨m, path, hm, hfault⟩ := exists_faultAt?_of_firstFault? hroot h
    exact (shows_of_faultAt? hfault).describes hfits hm

/-- Two children of the second child overlap. -/
theorem spanFault?_decides_nesting_overlapping :
    let n : Node :=
      { kind := "File", span := ⟨0, 30⟩
        children :=
          [{ kind := "Ident", span := ⟨0, 20⟩ },
            { kind := "FuncDecl", span := ⟨20, 30⟩
              children :=
                [{ kind := "Ident", span := ⟨20, 25⟩ }, { kind := "Ident", span := ⟨24, 30⟩ }] }] }
    n.Fits ∧ n.spanFault? = some (.unordered ⟨[1, 1]⟩ ⟨20, 25⟩ ⟨24, 30⟩) ∧
      (SpanFault.unordered ⟨[1, 1]⟩ ⟨20, 25⟩ ⟨24, 30⟩).Describes n := by
  intro n
  have hfits : n.Fits := by simp [n, Fits, all_mk, Text.wordLimit]
  have hfault : n.spanFault? = some (.unordered ⟨[1, 1]⟩ ⟨20, 25⟩ ⟨24, 30⟩) := by decide +kernel
  exact ⟨hfits, hfault, (spanFault?_decides_nesting n).2 hfits _ hfault⟩

end Node

end SyntaxOutline
