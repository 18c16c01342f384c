import SyntaxOutline.Proofs.Listing.Lookup
import SyntaxOutline.Proofs.Node.SpanFault

/-! # Which fault is reported

The check looks at a node together with its children before it goes on to the subtrees of these, and
of the subtrees it takes the last one first. So it stops at a place with all that is above it and to
the right of it in order. The subtrees to the left come earlier in document order, and they are not
looked at: the reported fault is the first in document order just if they pass the check as well. -/
namespace SyntaxOutline.Node

variable {n m : Node} {path above : NodePath} {fault other : SpanFault}

/-- The node at the end of the path is at fault: its span is inverted or not inside that of its
parent, or it starts before its previous sibling ends. -/
def FaultyAt (n : Node) (path : NodePath) : Prop :=
  ∃ above m fault, n.follow? above.steps = some m ∧ m.Shows above fault ∧ fault.path = path

theorem Shows.path_eq (h : n.Shows path fault) :
    fault.path = path ∨ ∃ ordinal, fault.path = path.child ordinal := by
  cases h with
  | inverted _ => exact .inl rfl
  | escapes _ _ => exact .inr ⟨_, rfl⟩
  | unordered _ _ _ => exact .inr ⟨_, rfl⟩

theorem Shows.prefix_path (h : n.Shows path fault) : path.steps <+: fault.path.steps := by
  rcases h.path_eq with heq | ⟨ordinal, heq⟩
  · exact NodePath.prefix_steps_iff.2 (.inl heq.symm)
  · rw [heq]
    exact List.prefix_append path.steps [ordinal]

theorem FaultyAt.exists_follow? (h : n.FaultyAt path) : ∃ m, n.follow? path.steps = some m := by
  obtain ⟨above, m, fault, hm, hshows, rfl⟩ := h
  cases hshows with
  | inverted _ => exact ⟨m, hm⟩
  | escapes hc _ => exact ⟨_, follow?_child hm hc⟩
  | unordered _ hc _ => exact ⟨_, follow?_child hm hc⟩

theorem rel_of_isChain_map {α β : Type} {R : β → β → Prop} {f : α → β} {l : List α} {i : Nat}
    {a b : α} (h : (l.map f).IsChain R) (ha : l[i]? = some a) (hb : l[i + 1]? = some b) :
    R (f a) (f b) := by
  obtain ⟨hlt, rfl⟩ := List.getElem?_eq_some_iff.1 hb
  obtain ⟨_, rfl⟩ := List.getElem?_eq_some_iff.1 ha
  exact List.isChain_iff_getElem.1 ((List.isChain_map f).1 h) i hlt

theorem Orderly.not_shows (h : n.Orderly) : ¬ n.Shows path fault := by
  intro hshows
  cases hshows with
  | inverted hspan => exact absurd h.upright (Nat.not_le_of_lt hspan)
  | escapes hc hspan =>
    rw [h.inside _ (List.mem_of_getElem? hc)] at hspan
    cases hspan
  | unordered hb hc hspan =>
    exact absurd (rel_of_isChain_map h.ordered hb hc) (Nat.not_le_of_lt hspan)

theorem not_orderly_of_faultAt? (h : n.faultAt? path = some fault) : ¬ n.Orderly := by
  intro hn
  cases h.symm.trans (faultAt?_eq_none_iff.2 hn)

/-- A node that is out of order is at fault, or one of its children is. -/
theorem exists_faultyAt (hm : n.follow? above.steps = some m) (h : ¬ m.Orderly) :
    ∃ q, n.FaultyAt q ∧ above.steps <+: q.steps := by
  have hne : m.faultAt? above ≠ none := mt faultAt?_eq_none_iff.1 h
  obtain ⟨fault, hfault⟩ := Option.ne_none_iff_exists'.1 hne
  have hshows := shows_of_faultAt? hfault
  exact ⟨fault.path, ⟨above, m, fault, hm, hshows, rfl⟩, hshows.prefix_path⟩

theorem spanFault?_eq_none_iff_all : n.spanFault? = none ↔ n.All Orderly :=
  spanFault?_eq_none_iff.trans all_orderly_iff_nested.symm

/-- The scan of siblings looks at the first one and goes on from there. -/
theorem siblingFault?_cons (parent : Span) (previous : Option Span) (c : Node × NodePath)
    (rest : List (Node × NodePath)) :
    siblingFault? parent previous (c :: rest) =
      (siblingFault? parent previous [c]).or (siblingFault? parent (some c.1.span) rest) := by
  by_cases hout : (!parent.contains c.1.span) = true
  · simp [siblingFault?, hout]
  · cases previous with
    | none => simp [siblingFault?, hout]
    | some before =>
      by_cases hlt : c.1.span.start < before.stop
      · simp [siblingFault?, hout, hlt]
      · simp [siblingFault?, hout, hlt]

theorem path_of_siblingFault? {parent : Span} {previous : Option Span} {c : Node × NodePath}
    (h : siblingFault? parent previous [c] = some fault) : fault.path = c.2 := by
  by_cases hout : (!parent.contains c.1.span) = true
  · obtain rfl : .escapes c.2 parent c.1.span = fault := by simpa [siblingFault?, hout] using h
    rfl
  · cases previous with
    | none => simp [siblingFault?, hout] at h
    | some before =>
      obtain ⟨_, rfl⟩ : c.1.span.start < before.stop ∧
          .unordered c.2 before c.1.span = fault := by
        simpa [siblingFault?, hout] using h
      rfl

/-- The scan of siblings has passed those before the one that it reports. -/
theorem exists_append_of_siblingFault? {parent : Span} {previous : Option Span}
    {siblings : List (Node × NodePath)} (h : siblingFault? parent previous siblings = some fault) :
    ∃ passed c rest, siblings = passed ++ c :: rest ∧ fault.path = c.2 ∧
      siblingFault? parent previous passed = none := by
  induction siblings generalizing previous with
  | nil => simp [siblingFault?] at h
  | cons c rest ih =>
    rw [siblingFault?_cons, Option.or_eq_some_iff] at h
    rcases h with hc | ⟨hc, hrest⟩
    · exact ⟨[], c, rest, rfl, path_of_siblingFault? hc, by simp [siblingFault?]⟩
    · obtain ⟨passed, d, rest, rfl, hpath, hpassed⟩ := ih hrest
      refine ⟨c :: passed, d, rest, rfl, hpath, ?_⟩
      rw [siblingFault?_cons, hc, hpassed, Option.none_or]

/-- Of the faults that show at one node, the first in document order is found. -/
theorem not_lt_of_faultAt? (h : n.faultAt? path = some fault) (hother : n.Shows path other) :
    ¬ other.path < fault.path := by
  intro hlt
  rw [faultAt?] at h
  split at h
  next =>
    obtain rfl := Option.some.inj h
    exact NodePath.not_lt_of_prefix_steps hother.prefix_path hlt
  next hupright =>
    obtain ⟨passed, c, rest, hsplit, hpath, hpassed⟩ := exists_append_of_siblingFault? h
    obtain ⟨hinside, hordered⟩ := siblingFault?_eq_none_iff.1 hpassed
    have hc : (n.childrenAt path)[passed.length]? = some c := by simp [hsplit]
    rw [getElem?_childrenAt, Option.map_eq_some_iff] at hc
    obtain ⟨_, _, rfl⟩ := hc
    have hearlier : ∀ {i d}, i < passed.length → n.children[i]? = some d →
        passed[i]? = some (d, path.child i) := by
      intro i d hi hd
      have hmem : (n.childrenAt path)[i]? = some (d, path.child i) := by
        rw [getElem?_childrenAt, hd, Option.map_some]
      rwa [hsplit, List.getElem?_append_left hi] at hmem
    rw [hpath] at hlt
    cases hother with
    | inverted hspan => exact hupright hspan
    | escapes hd hspan =>
      have hi := NodePath.child_lt_child_iff.1 hlt
      rw [hinside _ (List.mem_of_getElem? (hearlier hi hd))] at hspan
      cases hspan
    | unordered hb hd hspan =>
      have hi := NodePath.child_lt_child_iff.1 hlt
      have hprecedes := rel_of_isChain_map hordered
        (hearlier (Nat.lt_of_succ_lt hi) hb) (hearlier hi hd)
      exact absurd hprecedes (Nat.not_le_of_lt hspan)

theorem firstFault?_append (pending rest : List (Node × NodePath)) :
    firstFault? (pending ++ rest) = (firstFault? pending).or (firstFault? rest) := by
  fun_induction firstFault? pending with
  | case1 => simp
  | case2 n path pending fault hfault => simp [firstFault?, hfault]
  | case3 n path pending hnone ih =>
    rw [List.cons_append, firstFault?, hnone, ← List.append_assoc]
    exact ih

/-- The stack is worked off tree by tree. -/
theorem firstFault?_eq_findSome? (pending : List (Node × NodePath)) :
    firstFault? pending = pending.findSome? fun c => firstFault? [c] := by
  induction pending with
  | nil => simp [firstFault?]
  | cons c rest ih =>
    rw [← List.singleton_append, firstFault?_append, ih, List.findSome?_append,
      List.findSome?_singleton]

theorem mem_right_of_getElem? {α : Type} {front back : List α} {a b : α} {i : Nat}
    (hlt : front.length < i) (h : (front ++ a :: back)[i]? = some b) : b ∈ back := by
  obtain ⟨more, rfl⟩ := Nat.exists_eq_add_of_lt hlt
  rw [List.getElem?_append_right (by omega), Nat.add_assoc, Nat.add_sub_cancel_left,
    List.getElem?_cons_succ] at h
  exact List.mem_of_getElem? h

/-- What is reported of a tree shows at its root or else comes from the last child whose subtree
does not pass, since the stack holds the children in reverse. -/
theorem firstFault?_cases (h : firstFault? [(n, path)] = some fault) :
    n.faultAt? path = some fault ∨
      n.Orderly ∧ ∃ ordinal c, n.children[ordinal]? = some c ∧
        firstFault? [(c, path.child ordinal)] = some fault ∧
        ∀ later d, ordinal < later → n.children[later]? = some d → d.All Orderly := by
  rw [firstFault?] at h
  split at h
  next found hfound => exact .inl (hfound.trans h)
  next hnone =>
    rw [List.append_nil, firstFault?_eq_findSome?, List.findSome?_eq_some_iff] at h
    obtain ⟨front, c, back, hsplit, hc, hfront⟩ := h
    have hchildren : n.childrenAt path = back.reverse ++ c :: front.reverse := by
      rw [← List.reverse_inj, hsplit]
      simp
    have hplace : (n.childrenAt path)[back.length]? = some c := by simp [hchildren]
    rw [getElem?_childrenAt, Option.map_eq_some_iff] at hplace
    obtain ⟨c, hplace, rfl⟩ := hplace
    refine .inr ⟨faultAt?_eq_none_iff.1 hnone, back.length, c, hplace, hc, fun later d hlt hd => ?_⟩
    have hlater : (n.childrenAt path)[later]? = some (d, path.child later) := by
      rw [getElem?_childrenAt, hd, Option.map_some]
    rw [hchildren] at hlater
    have hmem := mem_right_of_getElem? (by rwa [List.length_reverse]) hlater
    have hpasses := hfront (d, path.child later) (List.mem_reverse.1 hmem)
    exact firstFault?_eq_none_iff.1 hpasses _ List.mem_cons_self

/-- What the check looks at before it comes to a place has no fault: the nodes above the place, and
the subtrees to the right of it. -/
structure PassesUpTo (n : Node) (place : NodePath) : Prop where
  above : ∀ (a : NodePath) (m : Node), a.isAncestorOf place = true →
    n.follow? a.steps = some m → m.Orderly
  right : ∀ (p : NodePath) (m : Node), place.LeftOf p → n.follow? p.steps = some m →
    m.spanFault? = none

theorem passesUpTo_root (n : Node) : n.PassesUpTo NodePath.root where
  above a m ha := by simp [NodePath.isAncestorOf, NodePath.root, NodePath.depth] at ha
  right p m hp := absurd hp (NodePath.not_root_leftOf p)

theorem passesUpTo_cons {c : Node} {ordinal : Nat} {steps : List Nat} (hn : n.Orderly)
    (hc : n.children[ordinal]? = some c) (hsteps : c.PassesUpTo ⟨steps⟩)
    (hlater : ∀ later d, ordinal < later → n.children[later]? = some d → d.All Orderly) :
    n.PassesUpTo ⟨ordinal :: steps⟩ where
  above := by
    rintro ⟨passed⟩ m ha hm
    cases passed with
    | nil =>
      obtain rfl : n = m := by simpa [follow?] using hm
      exact hn
    | cons first passed =>
      obtain ⟨rfl, hrest⟩ := NodePath.cons_isAncestorOf_cons_iff.1 ha
      obtain ⟨d, hd, hm⟩ := follow?_cons_eq_some.1 hm
      obtain rfl : c = d := Option.some.inj (hc.symm.trans hd)
      exact hsteps.above ⟨passed⟩ m hrest hm
  right := by
    rintro ⟨others⟩ m hp hm
    cases others with
    | nil => exact absurd hp (NodePath.not_leftOf_root _)
    | cons first others =>
      obtain ⟨d, hd, hm⟩ := follow?_cons_eq_some.1 hm
      rcases NodePath.cons_leftOf_cons_iff.1 hp with hlt | ⟨rfl, hrest⟩
      · exact spanFault?_eq_none_iff_all.2 ((hlater first d hlt hd).follow hm)
      · obtain rfl : c = d := Option.some.inj (hc.symm.trans hd)
        exact hsteps.right ⟨others⟩ m hrest hm

theorem exists_passesUpTo (h : firstFault? [(n, path)] = some fault) :
    ∃ (place : NodePath) (m : Node), n.follow? place.steps = some m ∧
      m.faultAt? ⟨path.steps ++ place.steps⟩ = some fault ∧ n.PassesUpTo place := by
  induction n using Node.induction generalizing path with
  | step n ih =>
    rcases firstFault?_cases h with hhere | ⟨hn, ordinal, c, hc, hbelow, hlater⟩
    · refine ⟨NodePath.root, n, rfl, ?_, n.passesUpTo_root⟩
      rwa [NodePath.root, List.append_nil]
    · obtain ⟨⟨steps⟩, m, hm, hfault, hsteps⟩ := ih c (List.mem_of_getElem? hc) hbelow
      rw [NodePath.child_steps_append] at hfault
      exact ⟨⟨ordinal :: steps⟩, m, follow?_cons_eq_some.2 ⟨c, hc, hm⟩, hfault,
        passesUpTo_cons hn hc hsteps hlater⟩

theorem PassesUpTo.not_lt {p q : NodePath} {k : Node} (hp : n.PassesUpTo p) (hq : n.PassesUpTo q)
    (hm : n.follow? p.steps = some m) (hk : n.follow? q.steps = some k) (hmp : ¬ m.Orderly)
    (hkq : ¬ k.Orderly) : ¬ p < q := by
  intro hlt
  rcases NodePath.lt_iff_isAncestorOf_or_leftOf.1 hlt with hancestor | hleft
  · exact hmp (hq.above p m hancestor hm)
  · exact hkq (spanFault?_eq_none_iff_all.1 (hp.right q k hleft hk)).here

/-- The check reports what shows at the place up to which the tree passes. -/
theorem spanFault?_eq_some_iff :
    n.spanFault? = some fault ↔
      ∃ (place : NodePath) (m : Node), n.follow? place.steps = some m ∧
        m.faultAt? place = some fault ∧ n.PassesUpTo place := by
  refine ⟨exists_passesUpTo, ?_⟩
  rintro ⟨place, m, hm, hfault, hplace⟩
  have horder := not_orderly_of_faultAt? hfault
  cases hspan : n.spanFault? with
  | none => exact absurd ((spanFault?_eq_none_iff_all.1 hspan).follow hm).here horder
  | some found =>
    obtain ⟨place', k, hk, hfound, hplace'⟩ := exists_passesUpTo hspan
    have horder' := not_orderly_of_faultAt? hfound
    obtain rfl : place = place' := by
      by_contra hne
      rcases NodePath.lt_or_lt_of_ne hne with hlt | hlt
      · exact hplace.not_lt hplace' hm hk horder horder' hlt
      · exact hplace'.not_lt hplace hk hm horder' horder hlt
    obtain rfl : m = k := Option.some.inj (hm.symm.trans hk)
    exact hfound.symm.trans hfault

/-- What shows before the reported fault shows to the left of it. -/
theorem leftOf_of_shows (h : n.spanFault? = some fault) (hm : n.follow? above.steps = some m)
    (hshows : m.Shows above other) (hlt : other.path < fault.path) : above.LeftOf fault.path := by
  obtain ⟨place, k, hk, hfault, hplace⟩ := spanFault?_eq_some_iff.1 h
  have habove : above < fault.path := by
    rcases NodePath.prefix_steps_iff.1 hshows.prefix_path with heq | hancestor
    · rwa [heq]
    · exact NodePath.lt_trans (NodePath.lt_of_isAncestorOf hancestor) hlt
  rcases NodePath.lt_iff_isAncestorOf_or_leftOf.1 habove with hancestor | hleft
  · exfalso
    have hway : above = place ∨ above.isAncestorOf place = true := by
      rcases (shows_of_faultAt? hfault).path_eq with heq | ⟨ordinal, heq⟩
      · exact .inr (heq ▸ hancestor)
      · rw [heq, ← NodePath.mem_ancestors_iff, NodePath.ancestors_child, List.mem_append,
          List.mem_singleton, NodePath.mem_ancestors_iff] at hancestor
        exact hancestor.symm
    rcases hway with rfl | hway
    · obtain rfl : k = m := Option.some.inj (hk.symm.trans hm)
      exact not_lt_of_faultAt? hfault hshows hlt
    · exact (hplace.above above m hway hm).not_shows hshows
  · exact hleft

/-- A node at fault before the reported one is in a subtree to the left that does not pass. -/
theorem FaultyAt.exists_leftOf {q : NodePath} (hq : n.FaultyAt q) (h : n.spanFault? = some fault)
    (hlt : q < fault.path) :
    ∃ (p : NodePath) (m : Node), p.LeftOf fault.path ∧ p.steps <+: q.steps ∧
      n.follow? p.steps = some m ∧ m.spanFault? ≠ none := by
  obtain ⟨above, m, other, hm, hshows, rfl⟩ := hq
  refine ⟨above, m, leftOf_of_shows h hm hshows hlt, hshows.prefix_path, hm, fun hpasses => ?_⟩
  exact (spanFault?_eq_none_iff_all.1 hpasses).here.not_shows hshows

/-- Conversely, the subtrees to the left of a path pass if no node there is at fault. -/
theorem spanFault?_eq_none_of_leftOf {p : NodePath} (hnone : ∀ q, q.LeftOf path → ¬ n.FaultyAt q)
    (hp : p.LeftOf path) (hm : n.follow? p.steps = some m) : m.spanFault? = none := by
  rw [spanFault?_eq_none_iff_all, all_iff_follow]
  intro steps k hk
  by_contra horder
  have hfollow : n.follow? (⟨p.steps ++ steps⟩ : NodePath).steps = some k := by
    rw [follow?_append, hm]
    exact hk
  obtain ⟨q, hq, hpre⟩ := exists_faultyAt hfollow horder
  have hbelow : p.steps <+: q.steps := (List.prefix_append p.steps steps).trans hpre
  exact hnone q (hp.below hbelow List.prefix_rfl) hq

/-- The check reports what shows at the place with nothing to report above it or to the right of it.
All nodes at fault that the listing has before the reported one are to the left, in subtrees that
the check has not looked at; there are none just if all subtrees to the left pass. -/
theorem spanFault?_first_iff (n : Node) (fault : SpanFault) :
    (n.spanFault? = some fault ↔
        ∃ (place : NodePath) (m : Node), n.follow? place.steps = some m ∧
          m.faultAt? place = some fault ∧ n.PassesUpTo place) ∧
      (n.spanFault? = some fault →
        ∃ before after, (Listing.ofTree (some n)).paths = before ++ fault.path :: after ∧
          n.FaultyAt fault.path ∧
          (∀ q ∈ before, n.FaultyAt q → q.LeftOf fault.path) ∧
          ((∀ q ∈ before, ¬ n.FaultyAt q) ↔
            ∀ (p : NodePath) (m : Node), p.LeftOf fault.path → n.follow? p.steps = some m →
              m.spanFault? = none)) := by
  refine ⟨spanFault?_eq_some_iff, fun h => ?_⟩
  obtain ⟨place, k, hk, hfault, _⟩ := spanFault?_eq_some_iff.1 h
  have hreported : n.FaultyAt fault.path := ⟨place, k, fault, hk, shows_of_faultAt? hfault, rfl⟩
  obtain ⟨before, after, hsplit⟩ :=
    List.append_of_mem (Listing.mem_paths_ofTree_iff.2 hreported.exists_follow?)
  have hascending : (before ++ fault.path :: after).Pairwise (· < ·) := by
    rw [← hsplit, Listing.paths, List.pairwise_map]
    exact Listing.ofTree_ascending n
  have hbefore : ∀ q ∈ before, q < fault.path := fun q hq =>
    (List.pairwise_append.1 hascending).2.2 q hq fault.path List.mem_cons_self
  refine ⟨before, after, hsplit, hreported, fun q hq hfaulty => ?_,
    fun hnone p m hp hm => ?_, fun hpasses q hq hfaulty => ?_⟩
  · obtain ⟨p, _, hp, hpre, _⟩ := hfaulty.exists_leftOf h (hbefore q hq)
    exact hp.below hpre List.prefix_rfl
  · refine spanFault?_eq_none_of_leftOf (fun q hq hfaulty => ?_) hp hm
    have hmem := Listing.mem_paths_ofTree_iff.2 hfaulty.exists_follow?
    rw [hsplit] at hmem
    exact hnone q (NodePath.mem_left_of_lt hascending hmem hq.lt) hfaulty
  · obtain ⟨p, m, hp, _, hm, hfails⟩ := hfaulty.exists_leftOf h (hbefore q hq)
    exact hfails (hpasses p m hp hm)

/-- The second child starts too early, and is reported before the subtree of the first one is looked
at. -/
theorem spanFault?_first_iff_overlapping :
    let n : Node :=
      { kind := "File", span := ⟨0, 30⟩
        children :=
          [{ kind := "FuncDecl", span := ⟨0, 10⟩
             children := [{ kind := "Ident", span := ⟨5, 12⟩ }] },
            { kind := "FuncDecl", span := ⟨8, 30⟩ }] }
    n.spanFault? = some (.unordered ⟨[1]⟩ ⟨0, 10⟩ ⟨8, 30⟩) ∧
      ∃ before after, (Listing.ofTree (some n)).paths = before ++ ⟨[1]⟩ :: after ∧
        n.FaultyAt ⟨[1]⟩ ∧ (∀ q ∈ before, n.FaultyAt q → q.LeftOf ⟨[1]⟩) ∧
        ¬ ∀ q ∈ before, ¬ n.FaultyAt q := by
  intro n
  have hspan : n.spanFault? = some (.unordered ⟨[1]⟩ ⟨0, 10⟩ ⟨8, 30⟩) := by decide +kernel
  obtain ⟨before, after, hsplit, hreported, hleft, hfirst⟩ := (spanFault?_first_iff n _).2 hspan
  refine ⟨hspan, before, after, hsplit, hreported, hleft, fun hnone => ?_⟩
  obtain ⟨c, hc, hfault⟩ : ∃ c, n.follow? [0] = some c ∧
      c.spanFault? = some (.escapes ⟨[0]⟩ ⟨0, 10⟩ ⟨5, 12⟩) := ⟨_, rfl, by decide +kernel⟩
  have hpasses := hfirst.1 hnone ⟨[0]⟩ c ⟨[], 0, 1, [], [], by decide, rfl, rfl⟩ hc
  cases hfault.symm.trans hpasses

/-- In each of the two subtrees a node ends after its parent, and the later one is reported. -/
theorem spanFault?_passes_over_earlier :
    let n : Node :=
      { kind := "File", span := ⟨0, 30⟩
        children :=
          [{ kind := "FuncDecl", span := ⟨0, 10⟩
             children := [{ kind := "Ident", span := ⟨5, 12⟩ }] },
            { kind := "FuncDecl", span := ⟨20, 30⟩
              children := [{ kind := "Ident", span := ⟨25, 31⟩ }] }] }
    n.spanFault? = some (.escapes ⟨[1, 0]⟩ ⟨20, 30⟩ ⟨25, 31⟩) ∧
      (Listing.ofTree (some n)).paths =
        [⟨[]⟩, ⟨[0]⟩, ⟨[0, 0]⟩, ⟨[1]⟩] ++ [(SpanFault.escapes ⟨[1, 0]⟩ ⟨20, 30⟩ ⟨25, 31⟩).path] ∧
      ¬ ∀ q ∈ ([⟨[]⟩, ⟨[0]⟩, ⟨[0, 0]⟩, ⟨[1]⟩] : List NodePath), ¬ n.FaultyAt q := by
  intro n
  refine ⟨by decide +kernel, by decide +kernel, fun hnone => hnone ⟨[0, 0]⟩ (by simp) ?_⟩
  obtain ⟨m, hm, c, hc, hspan⟩ : ∃ m, n.follow? [0] = some m ∧
      ∃ c, m.children[0]? = some c ∧ m.span.contains c.span = false :=
    ⟨_, rfl, _, rfl, rfl⟩
  exact ⟨⟨[0]⟩, m, _, hm, .escapes hc hspan, rfl⟩

end SyntaxOutline.Node
