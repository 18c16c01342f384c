import SyntaxOutline.Proofs.Json.Decode
import SyntaxOutline.Stored.Attributes

/-! # Attributes read back

Attributes without numbers read back from their stored form, however numbers are written. Their
names are written in ascending order, so setting them one after the other keeps all of them in
place. -/
namespace SyntaxOutline

open Json

variable {writeNumber : Binary64 → Json}

namespace AttributeValue

/-- No number stands in the value, nor in a list of it. -/
inductive NumberFree : AttributeValue → Prop
  | null : NumberFree .null
  | flag (value : Bool) : NumberFree (.flag value)
  | text (value : String) : NumberFree (.text value)
  | list {items : List AttributeValue} (hitems : ∀ item ∈ items, NumberFree item) :
    NumberFree (.list items)

theorem itemsToJson_eq_map (items : List AttributeValue) :
    itemsToJson writeNumber items = items.map (toJson writeNumber) := by
  induction items with
  | nil => rfl
  | cons item rest ih => rw [itemsToJson, ih, List.map_cons]

theorem ofJson?_toJson {value : AttributeValue} (h : value.NumberFree) {nesting : Nat}
    (hdepth : (value.toJson writeNumber).depth ≤ nesting) :
    ofJson? nesting (value.toJson writeNumber) = some value := by
  induction h generalizing nesting with
  | null => cases nesting <;> rfl
  | flag value => cases nesting <;> rfl
  | text value => cases nesting <;> rfl
  | list hitems ih =>
    rename_i items
    rw [toJson, itemsToJson_eq_map, Json.depth] at hdepth
    cases nesting with
    | zero => cases hdepth
    | succ inner =>
      have hread : (items.map (toJson writeNumber)).mapM (ofJson? inner) = some items :=
        mapM_map_of_depth (Nat.le_of_succ_le_succ hdepth) fun item hitem => ih item hitem
      rw [toJson, itemsToJson_eq_map, ofJson?, hread, Option.map_some]

end AttributeValue

namespace Attributes

/-- No value of an attribute holds a number. -/
def NumberFree (a : Attributes) : Prop := ∀ entry ∈ a.entries, entry.2.NumberFree

theorem insertEntry_of_greatest {name : String} (value : AttributeValue)
    {entries : List (String × AttributeValue)} (h : ∀ entry ∈ entries, entry.1 < name) :
    insertEntry name value entries = entries ++ [(name, value)] := by
  induction entries with
  | nil => rfl
  | cons entry rest ih =>
    have hlt := h entry List.mem_cons_self
    have hne : name ≠ entry.1 := by
      intro heq
      rw [heq] at hlt
      exact String.lt_irrefl _ hlt
    rw [insertEntry, if_neg (String.lt_asymm hlt), if_neg hne,
      ih fun entry hentry => h entry (List.mem_cons_of_mem _ hentry), List.cons_append]

theorem entries_foldl_insert (rest : List (String × AttributeValue)) (a : Attributes)
    (h : (a.entries ++ rest).Pairwise fun x y => x.1 < y.1) :
    (rest.foldl (fun a entry => a.insert entry.1 entry.2) a).entries = a.entries ++ rest := by
  induction rest generalizing a with
  | nil => rw [List.foldl_nil, List.append_nil]
  | cons entry rest ih =>
    have hgreatest : ∀ x ∈ a.entries, x.1 < entry.1 := by
      intro x hx
      exact (List.pairwise_append.1 h).2.2 x hx entry List.mem_cons_self
    have hentries : (a.insert entry.1 entry.2).entries = a.entries ++ [entry] :=
      insertEntry_of_greatest entry.2 hgreatest
    have hsplit : a.entries ++ entry :: rest = (a.insert entry.1 entry.2).entries ++ rest := by
      rw [hentries, List.append_assoc, List.singleton_append]
    rw [List.foldl_cons, ih _ (hsplit ▸ h), hsplit]

theorem ofList_entries (a : Attributes) : ofList a.entries = a :=
  eq_of_entries (entries_foldl_insert a.entries empty a.ascending)

theorem ofJson?_toJson {a : Attributes} (h : a.NumberFree) {nesting : Nat}
    (hdepth : (a.toJson writeNumber).depth ≤ nesting) :
    ofJson? nesting (a.toJson writeNumber) = some a := by
  have hpos : 0 < (a.toJson writeNumber).depth := depth_record_pos _
  cases nesting with
  | zero => omega
  | succ inner =>
    have hread : (a.entries.map fun entry => (entry.1, entry.2.toJson writeNumber)).mapM
        (fun field => (AttributeValue.ofJson? inner field.2).map fun value => (field.1, value)) =
          some a.entries := by
      refine mapM_map_eq_some fun entry hentry => ?_
      have hle : (entry.2.toJson writeNumber).depth ≤ inner :=
        depth_le_of_field hdepth entry.1 (List.mem_map.2 ⟨entry, hentry, rfl⟩)
      have hvalue : AttributeValue.ofJson? inner (entry.2.toJson writeNumber) = some entry.2 :=
        AttributeValue.ofJson?_toJson (h entry hentry) hle
      simp [hvalue]
    rw [ofJson?, toJson, toFields?_record, Option.bind_eq_bind, Option.bind_some, hread]
    exact congrArg some (ofList_entries a)

end Attributes

end SyntaxOutline
