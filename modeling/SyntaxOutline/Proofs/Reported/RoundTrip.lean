import SyntaxOutline.Proofs.Json.Text
import SyntaxOutline.Proofs.Node.Descent
import SyntaxOutline.Proofs.Reported.Rebasing
import SyntaxOutline.Proofs.Stored.Attributes
import SyntaxOutline.Reported.Reply

/-! # Reports read back

A tree that is written as the parser reports it is decoded as that tree, at any depth and for any
base of positions. The report may stand by itself, or as a string in a reply. -/
namespace SyntaxOutline

open Json

namespace ReportedNode

section Written

variable (writeNumber : Binary64 → Json)

mutual

/-- A report as the parser writes it; an absent field name is left out. -/
def toJson : ReportedNode → Json
  | ⟨kind, start, stop, children, attributes, fieldName⟩ =>
    .record ([("type", .text kind), ("pos", .natural start), ("end", .natural stop),
      ("children", childrenToJson children),
      ("metadata", (attributes.map (Attributes.toJson writeNumber)).getD .null)] ++
      (fieldName.map fun name => ("fieldName", .text name)).toList)

def childrenToJson : Option (List ReportedNode) → Json
  | none => .null
  | some children => .array (allToJson children)

def allToJson : List ReportedNode → List Json
  | [] => []
  | child :: rest => toJson child :: allToJson rest

end

/-- The fields of a written report. -/
def parts (r : ReportedNode) : List (String × Json) :=
  [("type", .text r.kind), ("pos", .natural r.start), ("end", .natural r.stop),
    ("children", childrenToJson writeNumber r.children),
    ("metadata", (r.attributes.map (Attributes.toJson writeNumber)).getD .null)] ++
    (r.fieldName.map fun name => ("fieldName", .text name)).toList

end Written

variable {writeNumber : Binary64 → Json}

theorem allToJson_eq_map (reports : List ReportedNode) :
    allToJson writeNumber reports = reports.map (toJson writeNumber) := by
  induction reports with
  | nil => rfl
  | cons child rest ih => rw [allToJson, ih, List.map_cons]

theorem toJson_eq (r : ReportedNode) : r.toJson writeNumber = .record (r.parts writeNumber) := by
  cases r
  rfl

theorem names_parts (r : ReportedNode) : (r.parts writeNumber).map (·.1) <+: fieldNames := by
  obtain ⟨_, _, _, _, _, fieldName⟩ := r
  cases fieldName with
  | none => exact ⟨["fieldName"], rfl⟩
  | some name => exact ⟨[], rfl⟩

theorem toRecord?_parts (r : ReportedNode) :
    (record (r.parts writeNumber)).toRecord? fieldNames = some (r.parts writeNumber) :=
  toRecord?_record_of_names (names_parts r) (by decide)

/-- Positions are words, and no attribute holds a number. -/
inductive Writable : ReportedNode → Prop
  | intro {r : ReportedNode} (start : r.start < Text.wordLimit) (stop : r.stop < Text.wordLimit)
      (attributes : ∀ a ∈ r.attributes, a.NumberFree) (below : ∀ c ∈ r.childList, Writable c) :
    Writable r

theorem read_children {r : ReportedNode} {nesting : Nat}
    (hchild : ∀ c ∈ r.childList, ∀ {nesting : Nat}, (c.toJson writeNumber).depth ≤ nesting →
      ofJson? nesting (c.toJson writeNumber) = some c)
    (hdepth : (childrenToJson writeNumber r.children).depth ≤ nesting) :
    toOption? (fun value =>
      match nesting with
      | 0 => none
      | below + 1 => toList? (ofJson? below) value) (childrenToJson writeNumber r.children) =
        some r.children := by
  cases hchildren : r.children with
  | none => rfl
  | some children =>
    have hlist : r.childList = children := by simp [childList, hchildren]
    rw [hchildren, childrenToJson, allToJson_eq_map, Json.depth] at hdepth
    cases nesting with
    | zero => cases hdepth
    | succ below =>
      have hread : (children.map (toJson writeNumber)).mapM (ofJson? below) = some children :=
        mapM_map_of_depth (Nat.le_of_succ_le_succ hdepth) fun c hc => hchild c (hlist ▸ hc)
      rw [childrenToJson, allToJson_eq_map]
      exact congrArg (Option.map some) hread

theorem read_attributes {attributes : Option Attributes} {nesting : Nat}
    (h : ∀ a ∈ attributes, a.NumberFree)
    (hdepth : ((attributes.map (Attributes.toJson writeNumber)).getD .null).depth ≤ nesting) :
    toOption? (Attributes.ofJson? nesting)
      ((attributes.map (Attributes.toJson writeNumber)).getD .null) = some attributes := by
  cases attributes with
  | none => rfl
  | some a =>
    have hread : Attributes.ofJson? nesting (a.toJson writeNumber) = some a :=
      Attributes.ofJson?_toJson (h a rfl) hdepth
    exact congrArg (Option.map some) hread

theorem ofJson?_toJson {r : ReportedNode} (h : r.Writable) {nesting : Nat}
    (hdepth : (r.toJson writeNumber).depth ≤ nesting) :
    ofJson? nesting (r.toJson writeNumber) = some r := by
  induction h generalizing nesting with
  | intro start stop attributes below ih =>
    rename_i r
    rw [toJson_eq] at hdepth ⊢
    have hpos : 0 < (record (r.parts writeNumber)).depth := depth_record_pos _
    cases nesting with
    | zero => omega
    | succ inner =>
      have hpart := depth_le_of_field hdepth
      have hchildren := read_children ih (hpart "children" (by simp [parts]))
      have hmetadata :
          ((r.attributes.map (Attributes.toJson writeNumber)).getD .null).depth ≤ inner :=
        hpart "metadata" (by simp [parts])
      have hattributes := read_attributes attributes hmetadata
      have hkind : fieldOr (r.parts writeNumber) "type" "" toText? = some r.kind := rfl
      have hstart : fieldOr (r.parts writeNumber) "pos" 0 toWord? = some r.start :=
        toNatural?_natural start
      have hstop : fieldOr (r.parts writeNumber) "end" 0 toWord? = some r.stop :=
        toNatural?_natural stop
      have hname : fieldOr (r.parts writeNumber) "fieldName" none (toOption? toText?) =
          some r.fieldName := by
        obtain ⟨_, _, _, _, _, fieldName⟩ := r
        cases fieldName <;> rfl
      rw [ofJson?]
      refine Option.bind_eq_some_iff.2 ⟨r.parts writeNumber, toRecord?_parts r, ?_⟩
      refine Option.bind_eq_some_iff.2 ⟨r.kind, hkind, ?_⟩
      refine Option.bind_eq_some_iff.2 ⟨r.start, hstart, ?_⟩
      refine Option.bind_eq_some_iff.2 ⟨r.stop, hstop, ?_⟩
      refine Option.bind_eq_some_iff.2 ⟨r.children, hchildren, ?_⟩
      refine Option.bind_eq_some_iff.2 ⟨r.attributes, hattributes, ?_⟩
      refine Option.bind_eq_some_iff.2 ⟨r.fieldName, hname, ?_⟩
      cases r
      rfl

/-- Any text of a report is decoded as the rebased report. -/
theorem decodeTree_of_parse_toJson {text : String} {r : ReportedNode} (h : r.Writable)
    (hparse : parse text = some (r.toJson writeNumber)) (detail : String) (base : Nat) :
    decodeTree text detail base = .ok (r.toNode base) := by
  have hread : ofJson? (r.toJson writeNumber).depth (r.toJson writeNumber) = some r :=
    ofJson?_toJson h (Nat.le_refl _)
  simp only [decodeTree, hparse, hread]

end ReportedNode

namespace Node

mutual

/-- The report of a tree by a parser that counts positions from a base. -/
def toReport (base : Nat) : Node → ReportedNode
  | ⟨kind, span, children, attributes, fieldName⟩ =>
    { kind, start := span.start + base, stop := span.stop + base
      children := some (childReports base children), attributes := some attributes, fieldName }

def childReports (base : Nat) : List Node → List ReportedNode
  | [] => []
  | child :: rest => child.toReport base :: childReports base rest

end

theorem childReports_eq_map (base : Nat) (children : List Node) :
    childReports base children = children.map (toReport base) := by
  induction children with
  | nil => rfl
  | cons child rest ih => rw [childReports, ih, List.map_cons]

/-- What a report can say of a node: the span is not inverted, its ends are words when counted from
the base, the field name is not empty, and no attribute holds a number. -/
structure Reportable (base : Nat) (n : Node) : Prop where
  ordered : n.span.start ≤ n.span.stop
  stop : n.span.stop + base < Text.wordLimit
  fieldName : n.fieldName ≠ some ""
  attributes : n.attributes.NumberFree

theorem childList_toReport (base : Nat) (n : Node) :
    (n.toReport base).childList = n.children.map (toReport base) := by
  cases n
  exact childReports_eq_map base _

theorem writable_toReport {base : Nat} {n : Node} (h : n.All (Reportable base)) :
    (n.toReport base).Writable := by
  induction h with
  | intro here below ih =>
    rename_i n
    have hordered := here.ordered
    have hstop := here.stop
    refine .intro ?_ ?_ ?_ ?_
    · cases n
      exact Nat.lt_of_le_of_lt (Nat.add_le_add_right hordered base) hstop
    · cases n
      exact hstop
    · intro a ha
      cases n
      obtain rfl := Option.some.inj ha
      exact here.attributes
    · intro c hc
      rw [childList_toReport] at hc
      obtain ⟨child, hchild, rfl⟩ := List.mem_map.1 hc
      exact ih child hchild

theorem rebase_toReport {base : Nat} {n : Node} (h : n.All (Reportable base)) :
    (n.toReport base).rebase base = n := by
  induction h with
  | intro here below ih =>
    rename_i n
    have hchildren : (n.children.map (toReport base)).map (ReportedNode.rebase base) =
        n.children := by
      rw [List.map_map]
      exact (List.map_congr_left ih).trans (List.map_id _)
    rw [ReportedNode.rebase_eq, childList_toReport, hchildren]
    obtain ⟨kind, ⟨start, stop⟩, children, attributes, fieldName⟩ := n
    have hordered : start ≤ stop := here.ordered
    have hspan : Span.mk (start + base - base) (max (stop + base - base) (start + base - base)) =
        ⟨start, stop⟩ := by
      rw [Nat.add_sub_cancel, Nat.add_sub_cancel, Nat.max_eq_left hordered]
    have hname : fieldName.filter (· ≠ "") = fieldName := by
      cases fieldName with
      | none => rfl
      | some name =>
        have hne : name ≠ "" := fun heq => here.fieldName (congrArg some heq)
        simp [hne]
    simp only [toReport, ReportedNode.rebased, ReportedNode.span, hspan, hname, Option.getD_some]

end Node

/-- Any text of the report of a tree is decoded as that tree. -/
theorem decodeTree_of_parse {writeNumber : Binary64 → Json} {text : String} {t : Node} {base : Nat}
    (h : t.All (Node.Reportable base))
    (hparse : parse text = some ((t.toReport base).toJson writeNumber)) (detail : String) :
    decodeTree text detail base = .ok t := by
  rw [ReportedNode.decodeTree_of_parse_toJson (Node.writable_toReport h) hparse,
    ReportedNode.toNode_eq_rebase, Node.rebase_toReport h]

/-- The text of the report of a tree. -/
def Node.reportText (writeNumber : Binary64 → Json) (t : Node) (base : Nat) : String :=
  render ((t.toReport base).toJson writeNumber)

/-- The text of a reply that brings a tree, itself as a text. -/
def Reply.textOf (tree : String) : String := render (.record [("ast", .text tree)])

theorem Reply.ofText_textOf (tree detail : String) :
    Reply.ofText (Reply.textOf tree) detail = .ok { tree := some tree } := by
  rw [Reply.ofText, Reply.textOf, parse_render]
  rfl

theorem decodeReply_textOf {tree : String} (h : tree ≠ "") (detail : String)
    (settings : Settings) :
    decodeReply (Reply.textOf tree) detail settings =
      decodeTree tree detail settings.positionBase := by
  have hkept : (some tree).filter (· ≠ "") = some tree := by simp [h]
  rw [decodeReply, Reply.ofText_textOf]
  simp only [Except.bind, Reply.toTree, hkept]
  rfl

/-- The report of a tree is decoded as that tree, alone and in a reply. How numbers are written and
what is said of unreadable texts does not matter. -/
theorem decode_reportText (writeNumber : Binary64 → Json) (detail : String) (t : Node) (base : Nat)
    (h : t.All (Node.Reportable base)) :
    decodeTree (t.reportText writeNumber base) detail base = .ok t ∧
      ∀ settings : Settings, settings.positionBase = base →
        decodeReply (Reply.textOf (t.reportText writeNumber base)) detail settings = .ok t := by
  have htree : decodeTree (t.reportText writeNumber base) detail base = .ok t :=
    decodeTree_of_parse h (parse_render _) detail
  have hne : t.reportText writeNumber base ≠ "" := render_ne_empty _
  refine ⟨htree, ?_⟩
  intro settings hbase
  rw [decodeReply_textOf hne, hbase, htree]

/-- A call, with a text that has to be escaped and a list among its attributes. -/
def Node.call : Node :=
  { kind := "CallExpr", span := ⟨2, 9⟩, fieldName := some "X"
    children := [{ kind := "Ident", span := ⟨2, 5⟩ }, { kind := "Ident", span := ⟨6, 8⟩ }]
    attributes := .ofList [("name", .list [.text "a \"b\"\n", .flag true, .null])] }

theorem decode_reportText_call :
    Node.call.All (Node.Reportable 1) ∧
      decodeTree (Node.call.reportText (fun _ => .null) 1) "" 1 = .ok Node.call ∧
      decodeReply (Reply.textOf (Node.call.reportText (fun _ => .null) 1)) "" {} =
        .ok Node.call := by
  have hempty : (∅ : Attributes).NumberFree := fun _ h => absurd h List.not_mem_nil
  have hlist : Node.call.attributes.NumberFree := by
    intro entry hentry
    obtain rfl := List.mem_singleton.1 hentry
    refine .list ?_
    intro item hitem
    simp only [List.mem_cons, List.not_mem_nil, or_false] at hitem
    rcases hitem with rfl | rfl | rfl
    · exact .text _
    · exact .flag _
    · exact .null
  have hroot : Node.call.Reportable 1 :=
    ⟨by simp [Node.call], by simp [Node.call, Text.wordLimit], by simp [Node.call], hlist⟩
  have hcall : Node.call.All (Node.Reportable 1) := by
    refine .intro hroot ?_
    intro c hc
    simp only [Node.call, List.mem_cons, List.not_mem_nil, or_false] at hc
    rcases hc with rfl | rfl
    · exact .intro ⟨by simp, by simp [Text.wordLimit], by simp, hempty⟩ (by simp)
    · exact .intro ⟨by simp, by simp [Text.wordLimit], by simp, hempty⟩ (by simp)
  have hdecode := decode_reportText (fun _ => .null) "" Node.call 1 hcall
  exact ⟨hcall, hdecode.1, hdecode.2 {} rfl⟩

end SyntaxOutline
