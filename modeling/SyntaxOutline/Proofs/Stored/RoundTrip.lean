import SyntaxOutline.Proofs.Expansion.Members
import SyntaxOutline.Proofs.Json.Text
import SyntaxOutline.Proofs.Node.Descent
import SyntaxOutline.Proofs.NodePath.Text
import SyntaxOutline.Proofs.Stored.Attributes
import SyntaxOutline.Stored.Expansion
import SyntaxOutline.Stored.Node

/-! # Stored forms read back

The text of a stored form reads back as the value that was stored. A value has a stored form if its
numbers fit their fields and its attributes hold no number, and the text of a value that nests must
stay within the nesting limit. The paths of an expansion may be stored in any order. -/
namespace SyntaxOutline

open Json

/-- What a text holds, for the reader of a stored form. -/
def Json.readStored {α : Type} (read : Nat → Json → Option α) (text : String) : Option α :=
  (parse text).bind (read nestingLimit)

theorem Json.readStored_render {α : Type} (read : Nat → Json → Option α) (value : Json) :
    readStored read (render value) = read nestingLimit value := by
  rw [readStored, parse_render, Option.bind_some]

namespace Span

/-- Both ends are words; the span may be inverted. -/
structure Storable (s : Span) : Prop where
  start : s.start < Text.wordLimit
  stop : s.stop < Text.wordLimit

theorem ofJson?_toJson {s : Span} (h : s.Storable) (nesting : Nat) :
    ofJson? (nesting + 1) s.toJson = some s := by
  have hfields : s.toJson.toRecord? ["start", "end"] =
      some [("start", .natural s.start), ("end", .natural s.stop)] :=
    toRecord?_record_of_names List.prefix_rfl (by decide)
  rw [ofJson?, hfields, Option.bind_eq_bind, Option.bind_some]
  refine Option.bind_eq_some_iff.2 ⟨s.start, toNatural?_natural h.start, ?_⟩
  refine Option.bind_eq_some_iff.2 ⟨s.stop, toNatural?_natural h.stop, ?_⟩
  rfl

end Span

namespace Position

structure Storable (p : Position) : Prop where
  line : p.line < Text.wordLimit
  column : p.column < Text.wordLimit
  offset : p.offset < Text.wordLimit

theorem ofJson?_toJson {p : Position} (h : p.Storable) (nesting : Nat) :
    ofJson? (nesting + 1) p.toJson = some p := by
  have hfields : p.toJson.toRecord? ["line", "column", "offset"] =
      some [("line", .natural p.line), ("column", .natural p.column),
        ("offset", .natural p.offset)] :=
    toRecord?_record_of_names List.prefix_rfl (by decide)
  rw [ofJson?, hfields, Option.bind_eq_bind, Option.bind_some]
  refine Option.bind_eq_some_iff.2 ⟨p.line, toNatural?_natural h.line, ?_⟩
  refine Option.bind_eq_some_iff.2 ⟨p.column, toNatural?_natural h.column, ?_⟩
  refine Option.bind_eq_some_iff.2 ⟨p.offset, toNatural?_natural h.offset, ?_⟩
  rfl

end Position

namespace Diagnostic

structure Storable (d : Diagnostic) : Prop where
  line : d.line < Text.wordLimit
  column : d.column < Text.wordLimit

theorem ofJson?_toJson {d : Diagnostic} (h : d.Storable) (nesting : Nat) :
    ofJson? (nesting + 1) d.toJson = some d := by
  have hfields : d.toJson.toRecord? ["message", "line", "column"] =
      some [("message", .text d.message), ("line", .natural d.line),
        ("column", .natural d.column)] :=
    toRecord?_record_of_names List.prefix_rfl (by decide)
  rw [ofJson?, hfields, Option.bind_eq_bind, Option.bind_some]
  refine Option.bind_eq_some_iff.2 ⟨d.message, rfl, ?_⟩
  refine Option.bind_eq_some_iff.2 ⟨d.line, toNatural?_natural h.line, ?_⟩
  refine Option.bind_eq_some_iff.2 ⟨d.column, toNatural?_natural h.column, ?_⟩
  rfl

end Diagnostic

namespace Settings

structure Storable (s : Settings) : Prop where
  positionBase : s.positionBase < Text.wordLimit
  initialDepth : s.initialDepth < depthBound

theorem ofJson?_toJson {s : Settings} (h : s.Storable) (nesting : Nat) :
    ofJson? (nesting + 1) s.toJson = some s := by
  have hfields : s.toJson.toRecord? ["position_base", "initial_expand_depth", "follow_cursor"] =
      some [("position_base", .natural s.positionBase),
        ("initial_expand_depth", .natural s.initialDepth), ("follow_cursor", .bool s.followCursor)] :=
    toRecord?_record_of_names List.prefix_rfl (by decide)
  rw [ofJson?, hfields, Option.bind_eq_bind, Option.bind_some]
  refine Option.bind_eq_some_iff.2 ⟨s.positionBase, toNatural?_natural h.positionBase, ?_⟩
  refine Option.bind_eq_some_iff.2 ⟨s.initialDepth, toNatural?_natural h.initialDepth, ?_⟩
  refine Option.bind_eq_some_iff.2 ⟨s.followCursor, rfl, ?_⟩
  rfl

end Settings

theorem NodePath.ofJson?_toJson (p : NodePath) : ofJson? p.toJson = some p := by
  rw [ofJson?, toJson, Json.text, toText?, Option.bind_eq_bind, Option.bind_some, p.ofText_text]

namespace Expansion

/-- An expansion that is stored with its paths in the given order. -/
def toJsonInOrder (order : List NodePath) : Json :=
  .record [("expanded", .array (order.map NodePath.toJson))]

theorem toJson_eq_inOrder (e : Expansion) :
    ∃ order : List NodePath, order.Perm e.paths ∧ e.toJson = toJsonInOrder order := by
  let before (p q : NodePath) : Bool := p.text ≤ q.text
  have hsorted : (e.paths.mergeSort before).map (·.text) = e.texts :=
    List.map_mergeSort fun _ _ _ _ => rfl
  refine ⟨e.paths.mergeSort before, List.mergeSort_perm e.paths before, ?_⟩
  rw [toJson, ← hsorted, List.map_map]
  rfl

theorem ofList_of_perm {e : Expansion} {order : List NodePath} (h : order.Perm e.paths) :
    ofList order = e :=
  ext_mem fun _ => mem_ofList.trans h.mem_iff

theorem ofJson?_toJsonInOrder {e : Expansion} {order : List NodePath} (h : order.Perm e.paths)
    (nesting : Nat) : ofJson? (nesting + 2) (toJsonInOrder order) = some e := by
  have hpaths : (order.map NodePath.toJson).mapM NodePath.ofJson? = some order :=
    mapM_map_eq_some fun p _ => p.ofJson?_toJson
  have hfields : (toJsonInOrder order).toRecord? ["expanded"] =
      some [("expanded", .array (order.map NodePath.toJson))] :=
    toRecord?_record_of_names List.prefix_rfl (by decide)
  rw [ofJson?, hfields, Option.bind_eq_bind, Option.bind_some]
  refine Option.bind_eq_some_iff.2 ⟨order, hpaths, ?_⟩
  exact congrArg some (ofList_of_perm h)

end Expansion

namespace Node

variable {writeNumber : Binary64 → Json}

/-- What the stored form of a node can hold. -/
structure Storable (n : Node) : Prop where
  span : n.span.Storable
  attributes : n.attributes.NumberFree

theorem allToJson_eq_map (nodes : List Node) :
    allToJson writeNumber nodes = nodes.map (toJson writeNumber) := by
  induction nodes with
  | nil => rfl
  | cons n rest ih => rw [allToJson, ih, List.map_cons]

/-- The fields of a stored node; only a field name that is present is one of them. -/
def parts (writeNumber : Binary64 → Json) (n : Node) : List (String × Json) :=
  [("kind", .text n.kind), ("range", n.span.toJson),
    ("children", .array (n.children.map (toJson writeNumber))),
    ("metadata", n.attributes.toJson writeNumber)] ++
    n.fieldName.toList.map fun name => ("field_name", .text name)

theorem toJson_eq (n : Node) : n.toJson writeNumber = .record (n.parts writeNumber) := by
  rw [parts, ← allToJson_eq_map]
  cases n
  rfl

theorem names_parts (n : Node) : (n.parts writeNumber).map (·.1) <+: fieldNames := by
  obtain ⟨_, _, _, _, fieldName⟩ := n
  cases fieldName with
  | none => exact ⟨["field_name"], rfl⟩
  | some name => exact ⟨[], rfl⟩

theorem toRecord?_parts (n : Node) :
    (record (n.parts writeNumber)).toRecord? fieldNames = some (n.parts writeNumber) :=
  toRecord?_record_of_names (names_parts n) (by decide)

theorem read_fieldName (n : Node) :
    fieldOr (n.parts writeNumber) "field_name" none (toOption? toText?) = some n.fieldName := by
  obtain ⟨_, _, _, _, fieldName⟩ := n
  cases fieldName <;> rfl

theorem read_span {s : Span} (h : s.Storable) {nesting : Nat} (hdepth : s.toJson.depth ≤ nesting) :
    Span.ofJson? nesting s.toJson = some s := by
  have hpos : 0 < s.toJson.depth := depth_record_pos _
  cases nesting with
  | zero => omega
  | succ below => exact Span.ofJson?_toJson h below

theorem read_children {n : Node} {nesting : Nat}
    (hchild : ∀ c ∈ n.children, ∀ {nesting : Nat}, (c.toJson writeNumber).depth ≤ nesting →
      ofJson? nesting (c.toJson writeNumber) = some c)
    (hdepth : (array (n.children.map (toJson writeNumber))).depth ≤ nesting) :
    fieldOr (n.parts writeNumber) "children" [] (fun value =>
      match nesting with
      | 0 => none
      | below + 1 => toList? (ofJson? below) value) = some n.children := by
  rw [Json.depth] at hdepth
  cases nesting with
  | zero => cases hdepth
  | succ below =>
    exact mapM_map_of_depth (Nat.le_of_succ_le_succ hdepth) fun c hc => hchild c hc

theorem ofJson?_toJson {n : Node} (h : n.All Storable) {nesting : Nat}
    (hdepth : (n.toJson writeNumber).depth ≤ nesting) :
    ofJson? nesting (n.toJson writeNumber) = some n := by
  induction h generalizing nesting with
  | intro here below ih =>
    rename_i n
    rw [toJson_eq] at hdepth ⊢
    have hpos : 0 < (record (n.parts writeNumber)).depth := depth_record_pos _
    cases nesting with
    | zero => omega
    | succ inner =>
      have hpart := depth_le_of_field hdepth
      have hspan := read_span here.span (hpart "range" (by simp [parts]))
      have hchildren := read_children ih (hpart "children" (by simp [parts]))
      have hattributes :
          Attributes.ofJson? inner (n.attributes.toJson writeNumber) = some n.attributes :=
        Attributes.ofJson?_toJson here.attributes (hpart "metadata" (by simp [parts]))
      rw [ofJson?]
      refine Option.bind_eq_some_iff.2 ⟨n.parts writeNumber, toRecord?_parts n, ?_⟩
      refine Option.bind_eq_some_iff.2 ⟨n.kind, rfl, ?_⟩
      refine Option.bind_eq_some_iff.2 ⟨n.span, hspan, ?_⟩
      refine Option.bind_eq_some_iff.2 ⟨n.children, hchildren, ?_⟩
      refine Option.bind_eq_some_iff.2 ⟨n.attributes, hattributes, ?_⟩
      refine Option.bind_eq_some_iff.2 ⟨n.fieldName, read_fieldName n, ?_⟩
      cases n
      rfl

end Node

/-- Every value with a stored form reads back from the text of that form, however numbers are
written. -/
theorem stored_forms_read_back (writeNumber : Binary64 → Json) :
    (∀ s : Span, s.Storable → readStored Span.ofJson? (render s.toJson) = some s) ∧
      (∀ p : Position, p.Storable → readStored Position.ofJson? (render p.toJson) = some p) ∧
      (∀ p : NodePath, readStored (fun _ => NodePath.ofJson?) (render p.toJson) = some p) ∧
      (∀ n : Node, n.All Node.Storable → (n.toJson writeNumber).depth ≤ nestingLimit →
        readStored Node.ofJson? (render (n.toJson writeNumber)) = some n) ∧
      (∀ v : AttributeValue, v.NumberFree → (v.toJson writeNumber).depth ≤ nestingLimit →
        readStored AttributeValue.ofJson? (render (v.toJson writeNumber)) = some v) ∧
      (∀ d : Diagnostic, d.Storable → readStored Diagnostic.ofJson? (render d.toJson) = some d) ∧
      (∀ s : Settings, s.Storable → readStored Settings.ofJson? (render s.toJson) = some s) ∧
      ∀ e : Expansion, readStored Expansion.ofJson? (render e.toJson) = some e ∧
        ∀ order : List NodePath, order.Perm e.paths →
          readStored Expansion.ofJson? (render (Expansion.toJsonInOrder order)) = some e := by
  simp only [readStored_render]
  refine ⟨fun s h => ?_, fun p h => ?_, fun p => ?_, fun n h hdepth => ?_, fun v h hdepth => ?_,
    fun d h => ?_, fun s h => ?_, fun e => ⟨?_, fun order h => ?_⟩⟩
  · exact Span.ofJson?_toJson h _
  · exact Position.ofJson?_toJson h _
  · exact NodePath.ofJson?_toJson p
  · exact Node.ofJson?_toJson h hdepth
  · exact AttributeValue.ofJson?_toJson h hdepth
  · exact Diagnostic.ofJson?_toJson h _
  · exact Settings.ofJson?_toJson h _
  · obtain ⟨order, hperm, hstored⟩ := e.toJson_eq_inOrder
    rw [hstored]
    exact Expansion.ofJson?_toJsonInOrder hperm _
  · exact Expansion.ofJson?_toJsonInOrder h _

/-- A node with an inverted span, an empty field name, and attributes that have to be escaped. -/
def Node.inverted : Node :=
  { kind := "\"\\\n\u0001", span := ⟨18446744073709551615, 0⟩, fieldName := some ""
    children := [{ kind := "", span := ⟨0, 18446744073709551615⟩ }]
    attributes := .ofList [("é😀", .list [.list [], .null, .text "\t", .flag false])] }

theorem stored_forms_read_back_inverted :
    Node.inverted.All Node.Storable ∧
      (Node.inverted.toJson fun _ => .null).depth ≤ nestingLimit ∧
      readStored Node.ofJson? (render (Node.inverted.toJson fun _ => .null)) =
        some Node.inverted ∧
      readStored Span.ofJson? (render Node.inverted.span.toJson) = some Node.inverted.span ∧
      readStored Settings.ofJson? (render ({ initialDepth := 65535 } : Settings).toJson) =
        some { initialDepth := 65535 } ∧
      readStored Expansion.ofJson? (render (Expansion.toJsonInOrder [⟨[10]⟩, ⟨[9]⟩])) =
        some (.ofList [⟨[9]⟩, ⟨[10]⟩]) := by
  obtain ⟨hspan, _, _, hnode, _, _, hsettings, hexpansion⟩ :=
    stored_forms_read_back fun _ => .null
  have hstored : Node.inverted.span.Storable := ⟨by decide, by decide⟩
  have hlist : Node.inverted.attributes.NumberFree := by
    intro entry hentry
    obtain rfl := List.mem_singleton.1 hentry
    refine .list fun item hitem => ?_
    simp only [List.mem_cons, List.not_mem_nil, or_false] at hitem
    rcases hitem with rfl | rfl | rfl | rfl
    · exact .list fun _ h => absurd h List.not_mem_nil
    · exact .null
    · exact .text _
    · exact .flag _
  have hall : Node.inverted.All Node.Storable := by
    refine .intro ⟨hstored, hlist⟩ fun c hc => ?_
    obtain rfl := List.mem_singleton.1 hc
    refine .intro ⟨⟨by decide, by decide⟩, ?_⟩ fun _ h => absurd h List.not_mem_nil
    exact fun _ h => absurd h List.not_mem_nil
  have hdepth : (Node.inverted.toJson fun _ => .null).depth ≤ nestingLimit := by decide +kernel
  refine ⟨hall, hdepth, hnode _ hall hdepth, hspan _ hstored, ?_, ?_⟩
  · exact hsettings _ ⟨by decide, by decide⟩
  · exact (hexpansion _).2 _ (.swap _ _ _)

end SyntaxOutline
