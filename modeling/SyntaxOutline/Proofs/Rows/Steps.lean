import SyntaxOutline.Proofs.Listing.Lookup
import SyntaxOutline.Rows

/-! # Steps along rows

In a list of rows without repetition a step down goes to the next place and a step up to the one
before. Only the last row has none below and only the first has none above. The step to the first
child needs a node that has children and is expanded. -/
namespace SyntaxOutline

variable {rows : List NodePath} {path q : NodePath} {i : Nat}

theorem idxOf?_of_getElem? (hnodup : rows.Nodup) (h : rows[i]? = some path) :
    rows.idxOf? path = some i := by
  obtain ⟨hi, rfl⟩ := List.getElem?_eq_some_iff.1 h
  refine List.idxOf?_eq_some_iff.2 ⟨hi, rfl, fun j hj heq => ?_⟩
  have hlt : j < rows.length := Nat.lt_trans hj hi
  have hji : rows[j]? = rows[i]? := by
    rw [List.getElem?_eq_getElem hlt, List.getElem?_eq_getElem hi, heq]
  have hsame : j = i := (List.getElem?_inj hlt hnodup).1 hji
  omega

theorem nextPath?_of_getElem? (hnodup : rows.Nodup) (h : rows[i]? = some path) :
    nextPath? path rows = rows[i + 1]? := by
  rw [nextPath?, idxOf?_of_getElem? hnodup h]

theorem previousPath?_of_head? (h : rows.head? = some path) : previousPath? path rows = none := by
  cases rows with
  | nil => cases h
  | cons first rest =>
    obtain rfl : first = path := by simpa using h
    simp [previousPath?, List.idxOf?, List.findIdx?_cons]

theorem previousPath?_of_getElem? (hnodup : rows.Nodup) (h : rows[i + 1]? = some path) :
    previousPath? path rows = rows[i]? := by
  rw [previousPath?, idxOf?_of_getElem? hnodup h]

/-- A step up is a step along the rows from the last to the first. -/
theorem previousPath?_of_getElem?_reverse (hnodup : rows.Nodup)
    (h : rows.reverse[i]? = some path) : previousPath? path rows = rows.reverse[i + 1]? := by
  have hi : i < rows.length := by
    rw [← List.length_reverse]
    exact (List.getElem?_eq_some_iff.1 h).1
  rw [List.getElem?_reverse hi] at h
  rcases Nat.lt_or_ge (i + 1) rows.length with hlt | hge
  · obtain ⟨j, hj⟩ : ∃ j, rows.length - 1 - i = j + 1 := ⟨rows.length - 2 - i, by omega⟩
    rw [hj] at h
    rw [List.getElem?_reverse hlt, previousPath?_of_getElem? hnodup h]
    congr 1
    omega
  · have hfirst : rows.length - 1 - i = 0 := by omega
    rw [hfirst, ← List.head?_eq_getElem?] at h
    rw [previousPath?_of_head? h, List.getElem?_eq_none (by simpa using hge)]

theorem mem_of_nextPath? (h : nextPath? path rows = some q) : q ∈ rows := by
  rw [nextPath?] at h
  split at h
  next => exact List.mem_of_getElem? h
  next => cases h

theorem mem_of_previousPath? (h : previousPath? path rows = some q) : q ∈ rows := by
  rw [previousPath?] at h
  split at h
  next => exact List.mem_of_getElem? h
  next => cases h

theorem nextPath?_eq_none_iff (hnodup : rows.Nodup) (hmem : path ∈ rows) :
    nextPath? path rows = none ↔ rows.getLast? = some path := by
  obtain ⟨i, hi⟩ := List.mem_iff_getElem?.1 hmem
  have hlt : i < rows.length := (List.getElem?_eq_some_iff.1 hi).1
  rw [nextPath?_of_getElem? hnodup hi, List.getElem?_eq_none_iff, List.getLast?_eq_getElem?, ← hi,
    eq_comm, List.getElem?_inj hlt hnodup]
  omega

theorem previousPath?_eq_none_iff (hnodup : rows.Nodup) (hmem : path ∈ rows) :
    previousPath? path rows = none ↔ rows.head? = some path := by
  refine ⟨fun h => ?_, previousPath?_of_head?⟩
  obtain ⟨i, hi⟩ := List.mem_iff_getElem?.1 hmem
  cases i with
  | zero => rw [List.head?_eq_getElem?, hi]
  | succ i =>
    have hlt : i + 1 < rows.length := (List.getElem?_eq_some_iff.1 hi).1
    rw [previousPath?_of_getElem? hnodup hi, List.getElem?_eq_none_iff] at h
    omega

theorem nextPath?_append {above below : List NodePath} (hnodup : (above ++ path :: below).Nodup) :
    nextPath? path (above ++ path :: below) = below.head? := by
  have hplace : (above ++ path :: below)[above.length]? = some path := by simp
  rw [nextPath?_of_getElem? hnodup hplace, List.getElem?_append_right (Nat.le_succ _)]
  simp [List.head?_eq_getElem?]

theorem previousPath?_append {above below : List NodePath}
    (hnodup : (above ++ path :: q :: below).Nodup) :
    previousPath? q (above ++ path :: q :: below) = some path := by
  have hplace : (above ++ path :: q :: below)[above.length + 1]? = some q := by simp
  rw [previousPath?_of_getElem? hnodup hplace]
  simp

theorem firstChildPath?_ofTree (tree : Option Node) (expanded : Expansion) (path : NodePath) :
    firstChildPath? (.ofTree tree) expanded path =
      if (Listing.ofTree tree).hasChildren path && expanded.contains path then
        some (path.child 0)
      else none := by
  rw [firstChildPath?, Listing.hasChildren]
  cases hget : (Listing.ofTree tree).get? path with
  | none => rfl
  | some entry =>
    cases tree with
    | none => cases hget
    | some n =>
      obtain ⟨m, _, rfl⟩ := Listing.get?_ofTree_eq_some_iff.1 hget
      simp only [Entry.head?_childPaths_ofNode, Option.any_some]
      cases expanded.contains path <;> simp

end SyntaxOutline
