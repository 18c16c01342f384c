import SyntaxOutline.Proofs.Json.Decode
import SyntaxOutline.Proofs.Node.Descent
import SyntaxOutline.Proofs.Reported.Rebasing
import SyntaxOutline.Reported.Reply

/-! # Size of decoded trees

A tree has no more nodes than the text that it is read from has characters. So a reply that fits
words brings only trees that do. -/
namespace SyntaxOutline

open Json

namespace ReportedNode

theorem sizes_le_itemsWeight {items : List Json} {children : List ReportedNode}
    {read : Json → Option ReportedNode}
    (hread : ∀ value r, read value = some r → r.size ≤ value.weight)
    (h : items.mapM read = some children) : sizes children ≤ itemsWeight items := by
  induction items generalizing children with
  | nil =>
    obtain rfl := Option.some.inj h
    simp [sizes]
  | cons item rest ih =>
    rw [List.mapM_cons] at h
    obtain ⟨child, hchild, h⟩ := Option.bind_eq_some_iff.1 h
    obtain ⟨tail, htail, h⟩ := Option.bind_eq_some_iff.1 h
    obtain rfl := Option.some.inj h
    have hfirst := hread item child hchild
    have hrest := ih htail
    rw [sizes, itemsWeight]
    omega

/-- A report has no more nodes than the value that it is read from weighs. -/
theorem size_of_ofJson? {nesting : Nat} {value : Json} {r : ReportedNode}
    (h : ofJson? nesting value = some r) : r.size ≤ value.weight := by
  induction nesting using Nat.strongRecOn generalizing value r with
  | ind nesting ih =>
    cases nesting with
    | zero => cases h
    | succ nesting =>
      rw [ofJson?] at h
      obtain ⟨fields, hfields, h⟩ := Option.bind_eq_some_iff.1 h
      obtain ⟨kind, _, h⟩ := Option.bind_eq_some_iff.1 h
      obtain ⟨start, _, h⟩ := Option.bind_eq_some_iff.1 h
      obtain ⟨stop, _, h⟩ := Option.bind_eq_some_iff.1 h
      obtain ⟨children, hchildren, h⟩ := Option.bind_eq_some_iff.1 h
      obtain ⟨attributes, _, h⟩ := Option.bind_eq_some_iff.1 h
      obtain ⟨fieldName, _, h⟩ := Option.bind_eq_some_iff.1 h
      obtain rfl := Option.some.inj h
      cases children with
      | none =>
        have hpos := weight_pos value
        simp only [size, optionSize]
        omega
      | some children =>
        obtain ⟨list, hlookup, hlist⟩ := fieldOr_option_eq_some hchildren
        have hlt := weight_of_toRecord? hfields hlookup
        cases nesting with
        | zero => cases hlist
        | succ below =>
          cases list with
          | array items =>
            have hsizes := sizes_le_itemsWeight (fun _ _ => ih below (by omega)) hlist
            simp only [size, optionSize, weight] at hlt ⊢
            omega
          | null => cases hlist
          | bool _ => cases hlist
          | number _ => cases hlist
          | string _ => cases hlist
          | object _ => cases hlist

end ReportedNode

theorem size_of_decodeTree {text detail : String} {base : Nat} {tree : Node}
    (h : decodeTree text detail base = .ok tree) : tree.size ≤ text.length := by
  unfold decodeTree at h
  split at h
  next => cases h
  next value hparse =>
    split at h
    next => cases h
    next report hreport =>
      obtain rfl := Except.ok.inj h
      have hweight := weight_parse hparse
      have hsize := ReportedNode.size_of_ofJson? hreport
      rw [ReportedNode.toNode_eq_rebase, ReportedNode.size_rebase]
      omega

namespace Reply

theorem length_of_ofText {text detail tree : String} {reply : Reply}
    (h : ofText text detail = .ok reply) (htree : reply.tree = some tree) :
    tree.length < text.length := by
  unfold ofText at h
  split at h
  next => cases h
  next value hparse =>
    split at h
    next => cases h
    next reply' hreply =>
      obtain rfl := Except.ok.inj h
      have hweight := weight_parse hparse
      rw [nestingLimit, ofJson?] at hreply
      obtain ⟨fields, hfields, hreply⟩ := Option.bind_eq_some_iff.1 hreply
      obtain ⟨ast, hast, hreply⟩ := Option.bind_eq_some_iff.1 hreply
      obtain ⟨error, _, hreply⟩ := Option.bind_eq_some_iff.1 hreply
      obtain rfl := Option.some.inj hreply
      simp only at htree
      rw [htree] at hast
      obtain ⟨value', hlookup, htext⟩ := fieldOr_option_eq_some hast
      have hlt := weight_of_toRecord? hfields hlookup
      cases value' with
      | string inner =>
        simp only [toText?] at htext
        simp only [Json.weight, htext, Option.map_some, Option.getD_some] at hlt
        omega
      | null => cases htext
      | bool _ => cases htext
      | number _ => cases htext
      | array _ => cases htext
      | object _ => cases htext

end Reply

/-- A decoded tree has no more nodes than the reply has characters. -/
theorem size_of_decodeReply {text detail : String} {settings : Settings} {tree : Node}
    (h : decodeReply text detail settings = .ok tree) : tree.size ≤ text.length := by
  unfold decodeReply at h
  cases hreply : Reply.ofText text detail with
  | error failure =>
    rw [hreply] at h
    cases h
  | ok reply =>
    rw [hreply] at h
    simp only [Except.bind, Reply.toTree] at h
    split at h
    next => cases h
    next => cases h
    next inner _ hinner =>
      have htree := (Option.filter_eq_some_iff.1 hinner).1
      have hlength := Reply.length_of_ofText hreply htree
      have hsize := size_of_decodeTree h
      omega

namespace Node

theorem length_le_sizes (children : List Node) : children.length ≤ sizes children := by
  induction children with
  | nil => simp
  | cons child rest ih =>
    have hpos := child.size_pos
    rw [List.length_cons, sizes]
    omega

theorem fits_of_size_lt {n : Node} (h : n.size < Text.wordLimit) : n.Fits := by
  induction n using Node.induction with
  | step n ih =>
    have hlength := length_le_sizes n.children
    have hsize := n.size_eq
    refine .intro (by omega) ?_
    intro c hc
    exact ih c hc (Nat.lt_trans (size_lt_of_mem hc) h)

end Node

theorem fits_of_decodeReply {text detail : String} {settings : Settings} {tree : Node}
    (htext : text.length < Text.wordLimit) (h : decodeReply text detail settings = .ok tree) :
    tree.Fits :=
  Node.fits_of_size_lt (Nat.lt_of_le_of_lt (size_of_decodeReply h) htext)

end SyntaxOutline
