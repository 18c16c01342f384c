import Mathlib.Logic.Relation
import SyntaxOutline.Session.Command

/-! # Moves of a session

Every command comes down to a few moves, made one after the other. A property of sessions that each
move keeps is therefore kept by every command, and by every run. -/
namespace SyntaxOutline

namespace Expansion

theorem insertPath_of_mem {path : NodePath} {paths : List NodePath}
    (hascending : paths.Pairwise (· < ·)) (h : path ∈ paths) : insertPath path paths = paths := by
  induction paths with
  | nil => cases h
  | cons first rest ih =>
    obtain ⟨hfirst, hrest⟩ := List.pairwise_cons.1 hascending
    rw [insertPath]
    rcases List.mem_cons.1 h with rfl | h
    · rw [if_neg (NodePath.lt_irrefl path), if_pos rfl]
    · have hlt := hfirst path h
      have hnot : ¬ path < first := fun hgt =>
        NodePath.lt_irrefl path (NodePath.lt_trans hgt hlt)
      have hne : path ≠ first := by
        rintro rfl
        exact NodePath.lt_irrefl path hlt
      rw [if_neg hnot, if_neg hne, ih hrest h]

theorem insert_of_mem {e : Expansion} {path : NodePath} (h : path ∈ e) : e.insert path = e := by
  obtain ⟨paths, hascending⟩ := e
  simp only [insert, insertPath_of_mem hascending h]

end Expansion

/-- Whether every tree that a command can bring has a property. -/
def Command.Brings {κ : Type} (P : Node → Prop) : Command κ → Prop
  | .applyParse outcome => ∀ tree, outcome = .ok tree → P tree
  | .applyReply text detail => ∀ settings tree, decodeReply text detail settings = .ok tree → P tree
  | _ => True

theorem Command.brings_some {κ : Type} (command : Command κ) : command.Brings fun _ => True := by
  cases command <;> simp [Brings]

namespace Session

/-- One change of a session. The trees that come in have the given property. -/
inductive Move (P : Node → Prop) : Session → Session → Prop
  | setSource (s : Session) (text : String) : Move P s (s.setSource text)
  | applyTree (s : Session) (tree : Node) (htree : P tree) : Move P s (s.applyTree tree)
  | applyFailure (s : Session) (failure : Failure) : Move P s (s.applyFailure failure)
  | clearSelection (s : Session) : Move P s s.clearSelection
  | select (s : Session) (path : NodePath) : Move P s (s.select path).1
  | setExpansion (s : Session) (expanded : Expansion) : Move P s (s.setExpansion expanded)
  | setProfile (s : Session) (profile : Profile) : Move P s (s.setProfile profile)
  | refresh (s : Session) : Move P s s.refresh

/-- Some changes, one after the other. -/
abbrev Moves (P : Node → Prop) : Session → Session → Prop := Relation.ReflTransGen (Move P)

/-- What every move keeps is kept by all of them together. -/
theorem Moves.keep {P : Node → Prop} {I : Session → Prop}
    (hmove : ∀ s s', Move P s s' → I s → I s') {s s' : Session} (h : Moves P s s') (hs : I s) :
    I s' := by
  induction h with
  | refl => exact hs
  | tail _ hlast ih => exact hmove _ _ hlast ih

variable {P : Node → Prop}

theorem moves_applyParse (s : Session) (outcome : Except Failure Node)
    (h : ∀ tree, outcome = .ok tree → P tree) : Moves P s (s.applyParse outcome) := by
  cases outcome with
  | ok tree => exact .single (.applyTree s tree (h tree rfl))
  | error failure => exact .single (.applyFailure s failure)

theorem moves_moveCursor (s : Session) (offset : Nat) : Moves P s (s.moveCursor offset).1 := by
  rw [moveCursor]
  cases s.locate? offset with
  | none => exact .single (.clearSelection s)
  | some path =>
    by_cases hfollow : s.settings.followCursor
    · simp only [hfollow, if_true]
      exact .tail (.single (.setExpansion s _)) (.select _ path)
    · simp only [hfollow]
      exact .single (.select s path)

theorem moves_selectTarget (s : Session) (target : Option NodePath) :
    Moves P s (s.selectTarget target).1 := by
  cases target with
  | none => exact .refl
  | some path => exact .single (.select s path)

/-- Expanding a node that is expanded already is no change. -/
theorem moves_expand (s : Session) (path : NodePath) :
    Moves P s
      { s with
        expanded := s.expanded.insert path
        stale := s.stale || !s.expanded.contains path } := by
  by_cases h : s.expanded.contains path
  · have hsame : s.expanded.insert path = s.expanded :=
      Expansion.insert_of_mem (Expansion.contains_iff.1 h)
    simp only [h, hsame, Bool.not_true, Bool.or_false]
    exact .refl
  · simp only [h, Bool.not_false, Bool.or_true]
    exact .single (.setExpansion s _)

theorem moves_selectChild (s : Session) : Moves P s s.selectChild.1 := by
  rw [selectChild]
  split
  next => exact .refl
  next path _ =>
    by_cases h : s.listing.hasChildren path
    · simp only [h, if_true]
      exact (moves_expand s path).trans (moves_selectTarget _ _)
    · simp only [h]
      exact .refl

theorem moves_toggleSelected (s : Session) (subtree : Bool) :
    Moves P s (s.toggleSelected subtree).1 := by
  rw [toggleSelected]
  cases s.selected with
  | none => exact .refl
  | some path =>
    by_cases h : s.listing.hasChildren path
    · simp only [h, if_true]
      exact .single (.setExpansion s _)
    · simp only [h]
      exact .refl

theorem moves_operate (s : Session) (operation : Operation) :
    Moves P s (s.operate operation).1 := by
  cases operation with
  | selectPrevious => exact moves_selectTarget s _
  | selectNext => exact moves_selectTarget s _
  | selectParent => exact moves_selectTarget s _
  | selectChild => exact moves_selectChild s
  | selectFirst => exact moves_selectTarget s _
  | selectLast => exact moves_selectTarget s _
  | toggle => exact moves_toggleSelected s false
  | toggleSubtree => exact moves_toggleSelected s true
  | expandAll => exact .single (.setExpansion s _)
  | collapseAll => exact .single (.setExpansion s _)

variable {κ : Type}

theorem moves_act (s : Session) (action : Action κ) : Moves P s (s.act action).1 := by
  cases action with
  | custom value => exact .refl
  | operate operation =>
    rw [act]
    by_cases hempty : s.refresh.visible.isEmpty
    · simp only [hempty, if_true]
      exact .single (.refresh s)
    · simp only [hempty]
      exact .head (.refresh s) (moves_operate s.refresh operation)

theorem moves_press (s : Session) (custom : KeyEvent → Option κ) (key : KeyEvent) :
    Moves P s (s.press custom key).1 := by
  rw [press]
  cases s.profile.resolveWith custom key with
  | none => exact .refl
  | some action => exact moves_act s action

/-- Every command is made of moves. -/
theorem moves_perform (s : Session) {command : Command κ} (h : command.Brings P) :
    Moves P s (s.perform command).1 := by
  cases command with
  | setSource text => exact .single (.setSource s text)
  | applyParse outcome => exact moves_applyParse s outcome h
  | applyReply text detail => exact moves_applyParse s _ (h s.settings)
  | moveCursor offset => exact moves_moveCursor s offset
  | select path => exact .single (.select s path)
  | clearSelection => exact .single (.clearSelection s)
  | toggle path => exact .single (.setExpansion s _)
  | setExpanded path expanded => exact .single (.setExpansion s _)
  | expandAll => exact .single (.setExpansion s _)
  | collapseAll => exact .single (.setExpansion s _)
  | setExpansion expanded => exact .single (.setExpansion s expanded)
  | refresh => exact .single (.refresh s)
  | act action => exact moves_act s action
  | press custom key => exact moves_press s custom key
  | setProfile profile => exact .single (.setProfile s profile)
  | cycleProfile => exact .single (.setProfile s _)

theorem run_cons (s : Session) (command : Command κ) (commands : List (Command κ)) :
    s.run (command :: commands) = (s.perform command).1.run commands := rfl

/-- So is every run. -/
theorem moves_run (s : Session) {commands : List (Command κ)}
    (h : ∀ command ∈ commands, command.Brings P) : Moves P s (s.run commands) := by
  induction commands generalizing s with
  | nil => exact .refl
  | cons command rest ih =>
    have hfirst := moves_perform s (h command List.mem_cons_self)
    have hrest := ih (s.perform command).1 fun c hc => h c (List.mem_cons_of_mem command hc)
    exact hfirst.trans hrest

end Session

end SyntaxOutline
