import SyntaxOutline.Proofs.Reported.Size
import SyntaxOutline.Proofs.Session.Coherence

/-! # Runs of a session

What holds of a session after any list of commands. Lists of children and texts that are longer than
words can count do not come in: a host has no room for them. -/
namespace SyntaxOutline

namespace Command

variable {κ : Type}

/-- No list of children and no reply is longer than words can count. -/
def Fits : Command κ → Prop
  | .applyParse outcome => ∀ tree, outcome = .ok tree → tree.Fits
  | .applyReply text _ => text.length < Text.wordLimit
  | _ => True

theorem Fits.brings {command : Command κ} (h : command.Fits) : command.Brings Node.Fits := by
  cases command with
  | applyParse outcome => exact h
  | applyReply text detail => exact fun _ _ hdecode => fits_of_decodeReply h hdecode
  | _ => exact trivial

/-- Whether the command brings the outcome of a parse. -/
def isParse : Command κ → Bool
  | .applyParse _ => true
  | .applyReply _ _ => true
  | _ => false

end Command

namespace Session

variable {κ : Type} {s s' : Session}

/-- Either the tree or the problem is there, and not both. -/
def Settled (s : Session) : Prop := s.tree.isSome ↔ s.problem = none

theorem settled_applyParse (s : Session) (outcome : Except Failure Node) :
    (s.applyParse outcome).Settled := by
  cases outcome <;> simp [applyParse, applyTree, applyFailure, Settled]

theorem settled_move {P : Node → Prop} (hmove : Move P s s') (h : s.Settled) : s'.Settled := by
  cases hmove with
  | applyTree tree htree => exact settled_applyParse s (.ok tree)
  | applyFailure failure => exact settled_applyParse s (.error failure)
  | select path =>
    obtain ⟨_, _, _, heq⟩ := s.select_frame path
    rw [heq]
    exact h
  | refresh =>
    rw [Settled, refresh_tree, refresh_problem]
    exact h
  | setSource text => exact h
  | clearSelection => exact h
  | setExpansion expanded => exact h
  | setProfile profile => exact h

theorem settled_of_parse {command : Command κ} (h : command.isParse = true) :
    (s.perform command).1.Settled := by
  cases command with
  | applyParse outcome => exact settled_applyParse s outcome
  | applyReply text detail => exact settled_applyParse s _
  | _ => cases h

/-- Once a parse has come in, either the tree or the problem stays there. -/
theorem settled_run (s : Session) {commands : List (Command κ)} {command : Command κ}
    (hmem : command ∈ commands) (h : command.isParse = true) : (s.run commands).Settled := by
  induction commands generalizing s with
  | nil => cases hmem
  | cons first rest ih =>
    rw [run_cons]
    rcases List.mem_cons.1 hmem with rfl | hmem
    · have hmoves := moves_run (s.perform command).1 fun c (_ : c ∈ rest) => c.brings_some
      exact hmoves.keep (fun _ _ => settled_move) (settled_of_parse h)
    · exact ih (s.perform first).1 hmem

theorem visible_of_run (settings : Settings) (commands : List (Command κ)) :
    let s := (start settings).run commands
    (s.stale = false → s.visible = s.listing.visiblePaths s.expanded) ∧
      ((∀ command ∈ commands, command.Fits) → s.stale = false →
        ∀ path, s.selected = some path → path ∈ s.visible) ∧
      s.refresh.visible = s.rows.map (·.path) := by
  intro s
  have hlisted := listed_run settings commands
  refine ⟨hlisted, ?_, ?_⟩
  · intro hfits hstale path hpath
    have hsound := sound_run settings fun command hmem => (hfits command hmem).brings
    exact hsound.shown hstale path hpath
  · rw [refresh_visible hlisted, rows, map_path_rows]

/-- With a refresh, a selection below a collapsed node has moved up to that node, which shows. -/
theorem visible_of_run_collapsed :
    let commands : List (Command Unit) :=
      [.applyParse (.ok Node.sample), .moveCursor 20, .toggle ⟨[1]⟩, .refresh]
    (∀ command ∈ commands, command.Fits) ∧
      ((start {}).run commands).selected = some ⟨[1]⟩ ∧
      ⟨[1]⟩ ∈ ((start {}).run commands).visible := by
  intro commands
  have hfits : ∀ command ∈ commands, command.Fits := by
    simp [commands, Command.Fits, Node.fits_sample]
  have hselected : ((start {}).run commands).selected = some ⟨[1]⟩ := by decide +kernel
  have hstale : ((start {}).run commands).stale = false := by decide +kernel
  exact ⟨hfits, hselected, (visible_of_run {} commands).2.1 hfits hstale ⟨[1]⟩ hselected⟩

theorem selection_of_run (settings : Settings) (commands : List (Command κ))
    (hfits : ∀ command ∈ commands, command.Fits) :
    let s := (start settings).run commands
    (¬ (s.tree.isSome ∧ s.problem.isSome) ∧
        ((∃ command ∈ commands, command.isParse = true) →
          (s.tree.isSome ↔ s.problem = none))) ∧
      (s.tree = none → s.selected = none ∧ s.highlight = none) ∧
      ((s.selected = none ↔ s.highlight = none) ∧
        ∀ path, s.selected = some path →
          ∃ node, s.node? path = some node ∧ s.highlight = some node.span) ∧
      s.lines = LineTable.ofText s.source := by
  intro s
  have hsound : s.Sound := sound_run settings fun command hmem => (hfits command hmem).brings
  have hunselected : s.tree = none → s.selected = none := by
    intro htree
    cases hselected : s.selected with
    | none => rfl
    | some path =>
      obtain ⟨node, hnode, _⟩ := hsound.named path hselected
      rw [node?, htree] at hnode
      cases hnode
  refine ⟨⟨?_, ?_⟩, ?_, ⟨?_, hsound.named⟩, hsound.lines_eq⟩
  · rintro ⟨htree, hproblem⟩
    rcases hsound.tree_or_problem with hnone | hnone
    · simp [hnone] at htree
    · simp [hnone] at hproblem
  · rintro ⟨command, hmem, hparse⟩
    exact settled_run _ hmem hparse
  · intro htree
    exact ⟨hunselected htree, hsound.unlit (hunselected htree)⟩
  · constructor
    · exact hsound.unlit
    · intro hunlit
      cases hselected : s.selected with
      | none => rfl
      | some path =>
        obtain ⟨node, _, hlit⟩ := hsound.named path hselected
        rw [hunlit] at hlit
        cases hlit

/-- A parse that fails takes the selection away with the tree. -/
theorem selection_of_run_failed :
    let commands : List (Command Unit) :=
      [.applyParse (.ok Node.sample), .select ⟨[1, 0]⟩, .refresh, .applyParse (.error .missingTree)]
    (∀ command ∈ commands, command.Fits) ∧
      ((start {}).run commands).selected = none ∧ ((start {}).run commands).highlight = none := by
  intro commands
  have hfits : ∀ command ∈ commands, command.Fits := by
    simp [commands, Command.Fits, Node.fits_sample]
  have htree : ((start {}).run commands).tree = none := rfl
  exact ⟨hfits, (selection_of_run {} commands hfits).2.1 htree⟩

end Session

end SyntaxOutline
