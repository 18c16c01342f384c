import SyntaxOutline.Listing

/-! # Sets of expanded nodes

The expanded nodes of an outline are a set of paths, kept in document order without repetition. A
path may stay in the set when the tree no longer has a node for it. -/
namespace SyntaxOutline

structure Expansion where
  paths : List NodePath
  ascending : paths.Pairwise (· < ·)
deriving DecidableEq, Repr

namespace Expansion

def empty : Expansion := ⟨[], .nil⟩

instance : EmptyCollection Expansion := ⟨empty⟩

instance : Membership NodePath Expansion := ⟨fun e path => path ∈ e.paths⟩

theorem mem_def {e : Expansion} {path : NodePath} : path ∈ e ↔ path ∈ e.paths := Iff.rfl

def contains (e : Expansion) (path : NodePath) : Bool := decide (path ∈ e.paths)

theorem contains_iff {e : Expansion} {path : NodePath} : e.contains path = true ↔ path ∈ e := by
  simp [contains, mem_def]

def size (e : Expansion) : Nat := e.paths.length

def isEmpty (e : Expansion) : Bool := e.paths.isEmpty

def insertPath (path : NodePath) : List NodePath → List NodePath
  | [] => [path]
  | first :: rest =>
    if path < first then path :: first :: rest
    else if path = first then first :: rest
    else first :: insertPath path rest

theorem mem_insertPath {path q : NodePath} {paths : List NodePath} :
    q ∈ insertPath path paths ↔ q = path ∨ q ∈ paths := by
  induction paths with
  | nil => simp [insertPath]
  | cons first rest ih =>
    rw [insertPath]
    split
    · simp
    · split
      next heq => simp [heq]
      next => simp [ih, or_left_comm]

theorem insertPath_ascending (path : NodePath) {paths : List NodePath}
    (h : paths.Pairwise (· < ·)) : (insertPath path paths).Pairwise (· < ·) := by
  induction paths with
  | nil => simp [insertPath]
  | cons first rest ih =>
    obtain ⟨hfirst, hrest⟩ := List.pairwise_cons.1 h
    rw [insertPath]
    split
    next hlt =>
      refine List.pairwise_cons.2 ⟨fun q hq => ?_, h⟩
      rcases List.mem_cons.1 hq with rfl | hq
      · exact hlt
      · exact NodePath.lt_trans hlt (hfirst q hq)
    next hlt =>
      split
      next => exact h
      next hne =>
        refine List.pairwise_cons.2 ⟨fun q hq => ?_, ih hrest⟩
        rcases mem_insertPath.1 hq with rfl | hq
        · exact NodePath.lt_of_not_lt hlt hne
        · exact hfirst q hq

def insert (e : Expansion) (path : NodePath) : Expansion :=
  ⟨insertPath path e.paths, insertPath_ascending path e.ascending⟩

def filter (e : Expansion) (keep : NodePath → Bool) : Expansion :=
  ⟨e.paths.filter keep, e.ascending.filter keep⟩

def erase (e : Expansion) (path : NodePath) : Expansion := e.filter fun q => q ≠ path

def insertAll (e : Expansion) (paths : List NodePath) : Expansion :=
  paths.foldr (fun path grown => grown.insert path) e

def eraseAll (e : Expansion) (paths : List NodePath) : Expansion := e.filter fun q => q ∉ paths

def ofList (paths : List NodePath) : Expansion := empty.insertAll paths

theorem mem_insert {e : Expansion} {path q : NodePath} : q ∈ e.insert path ↔ q = path ∨ q ∈ e :=
  mem_insertPath

theorem mem_filter {e : Expansion} {keep : NodePath → Bool} {q : NodePath} :
    q ∈ e.filter keep ↔ q ∈ e ∧ keep q = true := List.mem_filter

theorem mem_erase {e : Expansion} {path q : NodePath} : q ∈ e.erase path ↔ q ∈ e ∧ q ≠ path := by
  simp [erase, mem_filter]

theorem mem_insertAll {e : Expansion} {paths : List NodePath} {q : NodePath} :
    q ∈ e.insertAll paths ↔ q ∈ paths ∨ q ∈ e := by
  induction paths with
  | nil => simp [insertAll]
  | cons path rest ih =>
    rw [insertAll] at ih ⊢
    simp [mem_insert, ih, or_assoc]

theorem mem_eraseAll {e : Expansion} {paths : List NodePath} {q : NodePath} :
    q ∈ e.eraseAll paths ↔ q ∈ e ∧ q ∉ paths := by
  simp [eraseAll, mem_filter]

/-- Adds a path, and tells whether it is new. -/
def expand (e : Expansion) (path : NodePath) : Expansion × Bool :=
  (e.insert path, !e.contains path)

/-- Takes a path out, and tells whether it was there. -/
def collapse (e : Expansion) (path : NodePath) : Expansion × Bool :=
  (e.erase path, e.contains path)

/-- Expands a collapsed path and collapses an expanded one, and tells whether it is expanded now. -/
def toggle (e : Expansion) (path : NodePath) : Expansion × Bool :=
  if e.contains path then (e.erase path, false) else (e.insert path, true)

def setExpanded (e : Expansion) (path : NodePath) (expanded : Bool) : Expansion :=
  if expanded then e.insert path else e.erase path

/-- Takes every path out. -/
def collapseAll (e : Expansion) : Expansion := e.filter fun _ => false

theorem not_mem_collapseAll (e : Expansion) (path : NodePath) : path ∉ e.collapseAll := by
  simp [collapseAll, mem_filter]

/-- Takes every path out, and puts the nodes of a listing that have children in. -/
def expandAll (e : Expansion) (l : Listing) : Expansion :=
  e.collapseAll.insertAll ((l.entries.filter (·.hasChildren)).map (·.path))

/-- Adds those paths of a subtree that have children. -/
def expandSubtree (e : Expansion) (l : Listing) (path : NodePath) : Expansion :=
  e.insertAll ((l.subtree path).filter l.hasChildren)

def collapseSubtree (e : Expansion) (l : Listing) (path : NodePath) : Expansion :=
  e.eraseAll (l.subtree path)

/-- Adds what has to be expanded for a path to show. -/
def expandTo (e : Expansion) (path : NodePath) : Expansion := e.insertAll path.ancestors

/-- Adds the nodes with children above the given level. -/
def expandToDepth (e : Expansion) (l : Listing) (depth : Nat) : Expansion :=
  e.insertAll ((l.entries.filter fun x => x.level < depth && x.hasChildren).map (·.path))

/-- Keeps the paths of nodes with children. -/
def retainListed (e : Expansion) (l : Listing) : Expansion := e.filter l.hasChildren

/-- The number of paths that name no node with children. -/
def staleCount (e : Expansion) (l : Listing) : Nat := e.size - (e.retainListed l).size

end Expansion

end SyntaxOutline
