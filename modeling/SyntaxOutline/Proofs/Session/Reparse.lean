import SyntaxOutline.Proofs.Expansion.Members
import SyntaxOutline.Session
import SyntaxOutline.Stored.Basic

/-! # Parsing again

A tree that is brought twice in a row changes nothing the second time. Failures that come before it
cost the selection, but not the expanded paths: the tree finds those that were expanded before. -/
namespace SyntaxOutline

namespace Session

variable {s : Session} {t : Node}

theorem applyTree_eq (s : Session) (t : Node) :
    s.applyTree t =
      let listing := Listing.ofTree (some t)
      { s with
        tree := some t
        problem := none
        expanded := s.expanded.renewed listing s.settings.initialDepth
        selected := s.selected.filter listing.contains
        highlight := ((s.selected.filter listing.contains).bind listing.get?).map (·.node.span)
        stale := true } := rfl

theorem applyTree_applyTree (s : Session) (t : Node) :
    (s.applyTree t).applyTree t = s.applyTree t := by
  rw [applyTree_eq, applyTree_eq]
  simp only [Expansion.renewed_renewed, Option.filter_filter, Bool.and_self]

/-- Failures leave the expanded paths and the settings alone. -/
theorem frame_of_failures (s : Session) (failures : List Failure) :
    let failed := failures.foldl (fun s failure => s.applyParse (.error failure)) s
    failed.expanded = s.expanded ∧ failed.settings = s.settings := by
  induction failures generalizing s with
  | nil => exact ⟨rfl, rfl⟩
  | cons failure rest ih => exact ih (s.applyParse (.error failure))

/-- The level of a node is its depth as far as levels go, and settings ask for no more. -/
theorem mem_expanded_applyTree_iff (hdepth : s.settings.initialDepth < Settings.depthBound)
    (hnone : ¬ ∃ p ∈ s.expanded, t.Branches p) {path : NodePath} :
    path ∈ (s.applyTree t).expanded ↔
      t.Branches path ∧ path.depth < s.settings.initialDepth := by
  have hkept : ¬ ∃ p ∈ s.expanded, (Listing.ofTree (some t)).hasChildren p = true := by
    simpa only [Listing.hasChildren_ofTree_iff] using hnone
  have hlevel : min path.depth levelLimit < s.settings.initialDepth ↔
      path.depth < s.settings.initialDepth := by
    simp only [Settings.depthBound, levelLimit] at *
    omega
  have hexpanded : (s.applyTree t).expanded =
      s.expanded.renewed (.ofTree (some t)) s.settings.initialDepth := rfl
  rw [hexpanded, Expansion.renewed_of_not_kept hkept, Expansion.mem_expandToDepth, hlevel,
    Listing.hasChildren_ofTree_iff, and_comm]
  exact or_iff_left (Expansion.not_mem_empty path)

/-- A tree brought again changes nothing, and one brought after failures comes out as without them.
Of the paths expanded before, those of nodes with children stay expanded; if there are none, the
nodes with children above the initial depth are expanded. -/
theorem reparse_settles (s : Session) (t : Node)
    (hdepth : s.settings.initialDepth < Settings.depthBound) :
    (s.applyParse (.ok t)).applyParse (.ok t) = s.applyParse (.ok t) ∧
      (∀ failures : List Failure,
        let failed := failures.foldl (fun s failure => s.applyParse (.error failure)) s
        (failed.applyParse (.ok t)).tree = (s.applyParse (.ok t)).tree ∧
          (failed.applyParse (.ok t)).problem = (s.applyParse (.ok t)).problem ∧
          (failed.applyParse (.ok t)).expanded = (s.applyParse (.ok t)).expanded) ∧
      ((∃ p ∈ s.expanded, t.Branches p) → ∀ path,
        path ∈ (s.applyParse (.ok t)).expanded ↔ path ∈ s.expanded ∧ t.Branches path) ∧
      ((¬ ∃ p ∈ s.expanded, t.Branches p) → ∀ path,
        path ∈ (s.applyParse (.ok t)).expanded ↔
          t.Branches path ∧ path.depth < s.settings.initialDepth) := by
  refine ⟨applyTree_applyTree s t, fun failures => ?_, fun hkept path => ?_, fun hnone path => ?_⟩
  · intro failed
    obtain ⟨hexpanded, hsettings⟩ := frame_of_failures s failures
    refine ⟨rfl, rfl, ?_⟩
    simp only [applyParse, applyTree_eq]
    rw [hexpanded, hsettings]
  · have hlisted : ∃ p ∈ s.expanded, (Listing.ofTree (some t)).hasChildren p = true := by
      simpa only [Listing.hasChildren_ofTree_iff] using hkept
    simp only [applyParse, applyTree_eq]
    rw [Expansion.renewed_of_kept hlisted, Expansion.mem_retainListed,
      Listing.hasChildren_ofTree_iff]
  · exact mem_expanded_applyTree_iff hdepth hnone

/-- Of an expanded path and a stale one the first survives two failures and the tree. If there is
only the stale one, the root is expanded instead. -/
theorem reparse_settles_stale :
    let kept := (start {}).setExpansion (.ofList [⟨[1]⟩, ⟨[7]⟩])
    let dropped := (start {}).setExpansion (.ofList [⟨[7]⟩])
    let failures : List Failure := [.missingTree, .missingTree]
    let failed := failures.foldl (fun s failure => s.applyParse (.error failure)) kept
    kept.settings.initialDepth < Settings.depthBound ∧
      dropped.settings.initialDepth < Settings.depthBound ∧
      (kept.applyParse (.ok Node.sample)).applyParse (.ok Node.sample) =
        kept.applyParse (.ok Node.sample) ∧
      (∀ path, path ∈ (failed.applyParse (.ok Node.sample)).expanded ↔ path = ⟨[1]⟩) ∧
      (∀ path, path ∈ (dropped.applyParse (.ok Node.sample)).expanded ↔ path = NodePath.root) := by
  intro kept dropped failures failed
  have hdepth : kept.settings.initialDepth < Settings.depthBound := by decide
  have hdepth' : dropped.settings.initialDepth < Settings.depthBound := by decide
  have hbranch : Node.sample.Branches ⟨[1]⟩ := ⟨_, rfl, by decide⟩
  have hroot : Node.sample.Branches NodePath.root := ⟨_, rfl, by decide⟩
  have hstale : ¬ Node.sample.Branches ⟨[7]⟩ := by
    rintro ⟨m, hm, _⟩
    cases hm
  have hmem : ∀ path, path ∈ kept.expanded ↔ path = ⟨[1]⟩ ∨ path = ⟨[7]⟩ := fun path =>
    Expansion.mem_ofList.trans (by simp)
  have hmem' : ∀ path, path ∈ dropped.expanded ↔ path = ⟨[7]⟩ := fun path =>
    Expansion.mem_ofList.trans List.mem_singleton
  obtain ⟨hagain, hfailed, hkept, _⟩ := reparse_settles kept Node.sample hdepth
  obtain ⟨_, _, _, hdropped⟩ := reparse_settles dropped Node.sample hdepth'
  refine ⟨hdepth, hdepth', hagain, fun path => ?_, fun path => ?_⟩
  · have hexpanded : (failed.applyParse (.ok Node.sample)).expanded =
        (kept.applyParse (.ok Node.sample)).expanded := (hfailed failures).2.2
    rw [hexpanded, hkept ⟨⟨[1]⟩, (hmem _).2 (.inl rfl), hbranch⟩ path, hmem]
    constructor
    · rintro ⟨rfl | rfl, h⟩
      · rfl
      · exact absurd h hstale
    · rintro rfl
      exact ⟨.inl rfl, hbranch⟩
  · have hnone : ¬ ∃ p ∈ dropped.expanded, Node.sample.Branches p := by
      rintro ⟨p, hp, h⟩
      obtain rfl := (hmem' p).1 hp
      exact hstale h
    rw [hdropped hnone path]
    constructor
    · rintro ⟨_, hlevel⟩
      obtain ⟨steps⟩ := path
      have hlength : steps.length < 1 := hlevel
      obtain rfl := List.length_eq_zero_iff.1 (Nat.lt_one_iff.1 hlength)
      rfl
    · rintro rfl
      exact ⟨hroot, by decide⟩

end Session

end SyntaxOutline
