import SyntaxOutline.Proofs.Session.Responses

/-! # Walks along the rows

Stepping down from the first row visits every row in turn, and so does stepping up from the last.
Each step looks its place up again in the list of rows; it is found because no row is repeated. All
that a step changes is what is selected and highlighted. -/
namespace SyntaxOutline

/-- The operations that go from row to row. -/
def Operation.isWalk : Operation → Bool
  | .selectPrevious | .selectNext | .selectFirst | .selectLast => true
  | _ => false

namespace Session

variable {κ ν : Type} {s : Session} {path : NodePath} {node : Node}

/-- Carries out actions one after the other, and collects the responses. -/
def actAll (s : Session) : List (Action ν) → Session × List (Response ν)
  | [] => (s, [])
  | action :: rest =>
    let (after, response) := s.act action
    let (last, responses) := after.actAll rest
    (last, response :: responses)

theorem actAll_nil : s.actAll ([] : List (Action ν)) = (s, []) := rfl

theorem actAll_cons (action : Action ν) (rest : List (Action ν)) :
    s.actAll (action :: rest) =
      (((s.act action).1.actAll rest).1, (s.act action).2 :: ((s.act action).1.actAll rest).2) :=
  rfl

/-- The node with a path is selected and highlighted. -/
def Shows (s : Session) (path : NodePath) : Prop :=
  s.selected = some path ∧ ∃ node, s.node? path = some node ∧ s.highlight = some node.span

theorem shows_showing (h : s.node? path = some node) : (s.showing path node).Shows path :=
  ⟨rfl, node, h, rfl⟩

/-! An action starts with a refresh, so it does the same on a session that is refreshed already. -/

theorem act_refresh (h : s.refresh.Fresh) (operation : Operation) :
    s.refresh.act (.operate operation : Action ν) = s.act (.operate operation) := by
  rw [act, act, h.refresh_eq]

theorem actAll_refresh (h : s.refresh.Fresh) (operation : Operation) (rest : List (Action ν)) :
    s.refresh.actAll (.operate operation :: rest) = s.actAll (.operate operation :: rest) := by
  rw [actAll_cons, actAll_cons, act_refresh h]

/-- An operation that applies to an outline with rows is handled. -/
theorem Fresh.act_of_operate (h : s.Fresh) {operation : Operation} {after : Session}
    (hmem : path ∈ s.visible) (hoperate : s.operate operation = (after, true)) :
    s.act (.operate operation : Action ν) = (after, .handled) := by
  have hrows : s.visible ≠ [] := List.ne_nil_of_mem hmem
  simp [act, h.refresh_eq, hrows, hoperate]

theorem Fresh.act_of_select (h : s.Fresh) {operation : Operation}
    (hselect : s.operate operation = s.selectTarget (some path)) (hmem : path ∈ s.visible)
    (hnode : s.node? path = some node) :
    s.act (.operate operation : Action ν) = (s.showing path node, .handled) := by
  refine h.act_of_operate hmem ?_
  rw [hselect, selectTarget, select_of_visible hmem hnode]

section Rows

variable {operation : Operation} {rows : List NodePath}
  {direction : NodePath → List NodePath → Option NodePath}

theorem stepTarget_of_selected (h : s.selected = some path) :
    s.stepTarget direction = direction path s.visible := by
  rw [stepTarget, h]

/-- From the row in one place, steps lead to the row as many places further on. -/
theorem Fresh.walk (h : s.Fresh)
    (hoperate : ∀ t : Session, t.operate operation = t.selectTarget (t.stepTarget direction))
    (hrows : ∀ q ∈ rows, q ∈ s.visible)
    (hdirection : ∀ i q, rows[i]? = some q → direction q s.visible = rows[i + 1]?)
    {i k : Nat} {current last : NodePath} (hcurrent : rows[i]? = some current)
    (hselected : s.selected = some current) (hlast : rows[i + k]? = some last) :
    ∃ node, s.node? last = some node ∧
      s.actAll (List.replicate k (.operate operation : Action ν)) =
        (s.showing last node, List.replicate k .handled) := by
  induction k generalizing s i current with
  | zero =>
    obtain rfl : current = last := Option.some.inj (hcurrent.symm.trans hlast)
    obtain ⟨node, hnode⟩ := h.sound.names current hselected
    refine ⟨node, hnode, ?_⟩
    rw [h.sound.showing_selected hselected hnode]
    rfl
  | succ k ih =>
    have hlt : i + 1 < rows.length := by
      have := (List.getElem?_eq_some_iff.1 hlast).1
      omega
    have hnext : rows[i + 1]? = some rows[i + 1] := List.getElem?_eq_getElem hlt
    have hmem : rows[i + 1] ∈ s.visible := hrows _ (List.getElem_mem hlt)
    obtain ⟨next, hnode⟩ := h.named_of_visible hmem
    have hselect : s.operate operation = s.selectTarget (some rows[i + 1]) := by
      rw [hoperate, stepTarget_of_selected hselected, hdirection i current hcurrent, hnext]
    have hstep := h.act_of_select (ν := ν) hselect hmem hnode
    have hlast' : rows[i + 1 + k]? = some last := by
      rw [← hlast]
      congr 1
      omega
    obtain ⟨node, hfound, hwalk⟩ :=
      ih (h.showing hmem hnode) hrows hdirection hnext rfl hlast'
    refine ⟨node, hfound, ?_⟩
    rw [List.replicate_succ, actAll_cons, hstep, hwalk]
    rfl

/-- A walk from the end of the rows at which it starts. -/
theorem Fresh.walk_from_end (h : s.Fresh) {first : Operation}
    (hfirst : s.operate first = s.selectTarget rows.head?)
    (hoperate : ∀ t : Session, t.operate operation = t.selectTarget (t.stepTarget direction))
    (hrows : ∀ q ∈ rows, q ∈ s.visible)
    (hdirection : ∀ i q, rows[i]? = some q → direction q s.visible = rows[i + 1]?)
    {k : Nat} {last : NodePath} (hlast : rows[k]? = some last) :
    ∃ node, s.node? last = some node ∧
      s.actAll (.operate first :: List.replicate k (.operate operation : Action ν)) =
        (s.showing last node, List.replicate (k + 1) .handled) := by
  cases rows with
  | nil => cases hlast
  | cons top rest =>
    have hmem : top ∈ s.visible := hrows top List.mem_cons_self
    obtain ⟨node, hnode⟩ := h.named_of_visible hmem
    have hstep := h.act_of_select (ν := ν) hfirst hmem hnode
    have hlast' : (top :: rest)[0 + k]? = some last := by rw [Nat.zero_add, hlast]
    obtain ⟨found, hfound, hwalk⟩ :=
      (h.showing hmem hnode).walk (ν := ν) hoperate hrows hdirection (i := 0) rfl rfl hlast'
    refine ⟨found, hfound, ?_⟩
    rw [actAll_cons, hstep, hwalk]
    rfl

end Rows

theorem walk_down (h : s.refresh.Fresh) {k : Nat} (hlast : s.refresh.visible[k]? = some path) :
    ∃ node, s.refresh.node? path = some node ∧
      s.actAll (.operate .selectFirst :: List.replicate k (.operate .selectNext : Action ν)) =
        (s.refresh.showing path node, List.replicate (k + 1) .handled) := by
  rw [← actAll_refresh h]
  exact h.walk_from_end rfl (fun _ => rfl) (fun _ hq => hq)
    (fun _ _ hq => nextPath?_of_getElem? h.nodup_visible hq) hlast

theorem walk_up (h : s.refresh.Fresh) {k : Nat}
    (hlast : s.refresh.visible.reverse[k]? = some path) :
    ∃ node, s.refresh.node? path = some node ∧
      s.actAll (.operate .selectLast :: List.replicate k (.operate .selectPrevious : Action ν)) =
        (s.refresh.showing path node, List.replicate (k + 1) .handled) := by
  rw [← actAll_refresh h]
  exact h.walk_from_end (by rw [List.head?_reverse]; rfl) (fun _ => rfl)
    (fun _ hq => List.mem_reverse.1 hq)
    (fun _ _ hq => previousPath?_of_getElem?_reverse h.nodup_visible hq) hlast

theorem Fresh.act_of_blocked (h : s.Fresh) {operation : Operation} (hblocked : s.Blocked operation) :
    s.act (.operate operation : Action ν) = (s, .unhandled) := by
  have hfresh : s.refresh.Fresh := h.refresh_eq.symm ▸ h
  rcases act_cases ν hfresh operation with ⟨_, heq⟩ | ⟨hfree, _⟩
  · rw [heq, h.refresh_eq]
  · rw [h.refresh_eq] at hfree
    exact absurd (.inr hblocked) hfree

/-- A walk down to the last row is at its end there. -/
theorem act_bottom (h : s.refresh.Fresh) (hrows : s.refresh.visible ≠ []) :
    let bottom := (s.actAll (.operate .selectFirst ::
      List.replicate (s.refresh.visible.length - 1) (.operate .selectNext : Action ν))).1
    bottom.act (.operate .selectNext : Action ν) = (bottom, .unhandled) := by
  have hlast := List.getLast?_eq_some_getLast hrows
  rw [List.getLast?_eq_getElem?] at hlast
  obtain ⟨node, hnode, hwalk⟩ := walk_down (ν := ν) h hlast
  rw [hwalk]
  refine (h.showing (List.getLast_mem hrows) hnode).act_of_blocked ⟨_, rfl, ?_⟩
  exact List.getLast?_eq_some_getLast hrows

/-- So is a walk up to the first row. -/
theorem act_top (h : s.refresh.Fresh) (hrows : s.refresh.visible ≠ []) :
    let top := (s.actAll (.operate .selectLast ::
      List.replicate (s.refresh.visible.length - 1) (.operate .selectPrevious : Action ν))).1
    top.act (.operate .selectPrevious : Action ν) = (top, .unhandled) := by
  have hfirst := List.getLast?_reverse.trans (List.head?_eq_some_head hrows)
  rw [List.getLast?_eq_getElem?, List.length_reverse] at hfirst
  obtain ⟨node, hnode, hwalk⟩ := walk_up (ν := ν) h hfirst
  rw [hwalk]
  refine (h.showing (List.head_mem hrows) hnode).act_of_blocked ⟨_, rfl, ?_⟩
  exact List.head?_eq_some_head hrows

/-- A step down and a step up again. -/
theorem Fresh.walk_back (h : s.Fresh) {i : Nat} {next : NodePath}
    (hpath : s.visible[i]? = some path) (hnext : s.visible[i + 1]? = some next)
    (hselected : s.selected = some path) :
    s.actAll [.operate .selectNext, (.operate .selectPrevious : Action ν)] =
      (s, [.handled, .handled]) := by
  have hmem : next ∈ s.visible := List.mem_of_getElem? hnext
  obtain ⟨below, hbelow⟩ := h.named_of_visible hmem
  obtain ⟨node, hnode⟩ := h.sound.names path hselected
  have hdown : s.operate .selectNext = s.selectTarget (some next) := by
    rw [operate, stepTarget_of_selected hselected, nextPath?_of_getElem? h.nodup_visible hpath,
      hnext]
  have hup : (s.showing next below).operate .selectPrevious =
      (s.showing next below).selectTarget (some path) := by
    have hnodup := (h.showing hmem hbelow).nodup_visible
    rw [operate, stepTarget_of_selected rfl, previousPath?_of_getElem? hnodup hnext, ← hpath]
    rfl
  have hfirst := h.act_of_select (ν := ν) hdown hmem hbelow
  have hsecond := (h.showing hmem hbelow).act_of_select (ν := ν) hup
    (h.selected_visible hselected) hnode
  rw [actAll_cons, hfirst, actAll_cons, hsecond, actAll_nil]
  have hback : (s.showing next below).showing path node = s :=
    h.sound.showing_selected hselected hnode
  rw [hback]

/-! Going from row to row changes nothing but the selection and the highlight. -/

theorem operate_walk {operation : Operation} (hwalk : operation.isWalk = true) :
    ∃ target, s.operate operation = s.selectTarget target ∧
      ∀ q, target = some q → q ∈ s.visible := by
  cases operation with
  | selectPrevious => exact ⟨_, rfl, fun _ => stepTarget_visible fun _ _ => mem_of_previousPath?⟩
  | selectNext => exact ⟨_, rfl, fun _ => stepTarget_visible fun _ _ => mem_of_nextPath?⟩
  | selectFirst => exact ⟨_, rfl, fun _ => List.mem_of_mem_head?⟩
  | selectLast => exact ⟨_, rfl, fun _ => List.mem_of_getLast?⟩
  | _ => cases hwalk

theorem Fresh.act_walk (h : s.Fresh) {operation : Operation} (hwalk : operation.isWalk = true) :
    (s.act (.operate operation : Action ν)).1 = s ∨
      ∃ path node, path ∈ s.visible ∧ s.node? path = some node ∧
        (s.act (.operate operation : Action ν)).1 = s.showing path node := by
  obtain ⟨target, htarget, hmem⟩ := operate_walk (s := s) hwalk
  cases target with
  | none =>
    refine .inl ?_
    rw [act, h.refresh_eq, htarget]
    simp only [selectTarget]
    split
    next => rfl
    next => rfl
  | some path =>
    obtain ⟨node, hnode⟩ := h.named_of_visible (hmem path rfl)
    exact .inr ⟨path, node, hmem path rfl, hnode,
      by rw [h.act_of_select htarget (hmem path rfl) hnode]⟩

theorem Fresh.actAll_walk (h : s.Fresh) {operations : List Operation}
    (hwalk : ∀ operation ∈ operations, operation.isWalk = true) :
    ∃ selected highlight,
      (s.actAll (operations.map fun o => (.operate o : Action ν))).1 =
          { s with selected, highlight } ∧
        (s.actAll (operations.map fun o => (.operate o : Action ν))).1.Fresh := by
  induction operations generalizing s with
  | nil => exact ⟨_, _, rfl, h⟩
  | cons operation rest ih =>
    have hrest : ∀ o ∈ rest, o.isWalk = true := fun o ho => hwalk o (List.mem_cons_of_mem _ ho)
    rw [List.map_cons, actAll_cons]
    rcases h.act_walk (ν := ν) (hwalk operation List.mem_cons_self) with
      heq | ⟨path, node, hmem, hnode, heq⟩
    · rw [heq]
      exact ih h hrest
    · rw [heq]
      obtain ⟨selected, highlight, hafter, hfresh⟩ := ih (h.showing hmem hnode) hrest
      exact ⟨selected, highlight, hafter, hfresh⟩

/-- Operations that go from row to row leave the rows, the expanded nodes and the tree alone. -/
theorem frame_of_walk (h : s.refresh.Fresh) {operations : List Operation}
    (hwalk : ∀ operation ∈ operations, operation.isWalk = true) :
    let after := (s.actAll (operations.map fun o => (.operate o : Action ν))).1
    after.refresh.visible = s.refresh.visible ∧ after.expanded = s.expanded ∧
      after.tree = s.tree := by
  cases operations with
  | nil => exact ⟨rfl, rfl, rfl⟩
  | cons operation rest =>
    obtain ⟨selected, highlight, hafter, hfresh⟩ := h.actAll_walk (ν := ν) hwalk
    rw [List.map_cons, actAll_refresh h] at hafter hfresh
    intro after
    have hkept : after.Fresh := hfresh
    have heq : after = { s.refresh with selected, highlight } := hafter
    rw [hkept.refresh_eq, heq]
    exact ⟨rfl, s.refresh_expanded, s.refresh_tree⟩

/-- After any run that left a tree, the rows are walked from end to end, and nothing but the
selection and the highlight moves. -/
theorem walk_of_run (settings : Settings) (commands : List (Command κ))
    (hfits : ∀ command ∈ commands, command.Fits)
    (htree : ((start settings).run commands).tree.isSome) :
    let s := (start settings).run commands
    let rows := s.refresh.visible
    let down (k : Nat) : Session × List (Response ν) :=
      s.actAll (.operate .selectFirst :: List.replicate k (.operate .selectNext))
    let up (k : Nat) : Session × List (Response ν) :=
      s.actAll (.operate .selectLast :: List.replicate k (.operate .selectPrevious))
    rows ≠ [] ∧
      (∀ (k : Nat) (hk : k < rows.length),
        ((down k).2 = List.replicate (k + 1) .handled ∧ (down k).1.Shows rows[k]) ∧
          ((up k).2 = List.replicate (k + 1) .handled ∧
            (up k).1.Shows rows[rows.length - 1 - k])) ∧
      (let bottom := (down (rows.length - 1)).1
       bottom.act (.operate .selectNext : Action ν) = (bottom, .unhandled)) ∧
      (let top := (up (rows.length - 1)).1
       top.act (.operate .selectPrevious : Action ν) = (top, .unhandled)) ∧
      (∀ (i : Nat) (hi : i + 1 < rows.length), s.refresh.selected = some rows[i] →
        s.actAll [.operate .selectNext, (.operate .selectPrevious : Action ν)] =
          (s.refresh, [.handled, .handled])) ∧
      ∀ operations : List Operation, (∀ operation ∈ operations, operation.isWalk = true) →
        let after := (s.actAll (operations.map fun o => (.operate o : Action ν))).1
        after.refresh.visible = rows ∧ after.expanded = s.expanded ∧ after.tree = s.tree := by
  intro s rows down up
  have hfresh : s.refresh.Fresh := fresh_run settings hfits
  have hrows : rows ≠ [] := by
    have htree' : s.refresh.tree.isSome := by rw [refresh_tree]; exact htree
    exact List.ne_nil_of_mem (hfresh.root_mem_visible htree')
  refine ⟨hrows, fun k hk => ⟨?_, ?_⟩, act_bottom hfresh hrows, act_top hfresh hrows,
    fun i hi hselected => ?_, fun operations => frame_of_walk hfresh⟩
  · obtain ⟨node, hnode, hwalk⟩ := walk_down (ν := ν) hfresh (List.getElem?_eq_getElem hk)
    simp only [down, hwalk, true_and]
    exact shows_showing hnode
  · have hpath : rows.reverse[k]? = some rows[rows.length - 1 - k] := by
      rw [List.getElem?_reverse hk, List.getElem?_eq_getElem]
    obtain ⟨node, hnode, hwalk⟩ := walk_up (ν := ν) hfresh hpath
    simp only [up, hwalk, true_and]
    exact shows_showing hnode
  · have hrow := List.getElem?_eq_getElem (Nat.lt_of_succ_lt hi)
    rw [← hfresh.walk_back hrow (List.getElem?_eq_getElem hi) hselected, actAll_refresh hfresh]

/-- Two steps down from the root, over its first child, which has no children. -/
theorem walk_of_run_twice :
    let commands : List (Command Unit) := [.applyParse (.ok Node.sample)]
    let s := (start {}).run commands
    (∀ command ∈ commands, command.Fits) ∧ s.tree.isSome ∧
      s.refresh.visible = [⟨[]⟩, ⟨[0]⟩, ⟨[1]⟩] ∧
      (s.actAll [.operate .selectFirst, .operate .selectNext,
        (.operate .selectNext : Action Unit)]).1.Shows ⟨[1]⟩ := by
  intro commands s
  have hfits : ∀ command ∈ commands, command.Fits := by
    simp [commands, Command.Fits, Node.fits_sample]
  have hrows : s.refresh.visible = [⟨[]⟩, ⟨[0]⟩, ⟨[1]⟩] := by decide +kernel
  have hlt : 2 < s.refresh.visible.length := by rw [hrows]; decide
  have hthird : s.refresh.visible[2] = ⟨[1]⟩ := by simp [hrows]
  have hshows := (((walk_of_run (ν := Unit) {} commands hfits rfl).2.1 2 hlt).1).2
  rw [hthird] at hshows
  exact ⟨hfits, rfl, hrows, hshows⟩

end Session

end SyntaxOutline
