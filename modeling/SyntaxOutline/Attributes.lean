import SyntaxOutline.Binary64

/-! # Attributes of nodes

A node carries named attributes. Values are nulls, flags, numbers, texts and lists of values. The
attributes of a node are kept in ascending order of their names, which is also the order in which
they are written; setting a name again replaces its value. -/
namespace SyntaxOutline

inductive AttributeValue where
  | null
  | flag (value : Bool)
  | number (value : Binary64)
  | text (value : String)
  | list (items : List AttributeValue)
deriving BEq, Repr

namespace AttributeValue

def text? : AttributeValue → Option String
  | text value => some value
  | _ => none

end AttributeValue

structure Attributes where
  entries : List (String × AttributeValue)
  ascending : entries.Pairwise fun a b => a.1 < b.1
deriving Repr

namespace Attributes

instance : BEq Attributes := ⟨fun a b => a.entries == b.entries⟩

theorem eq_of_entries {a b : Attributes} (h : a.entries = b.entries) : a = b := by
  cases a; cases b; cases h; rfl

def empty : Attributes := ⟨[], .nil⟩

instance : EmptyCollection Attributes := ⟨empty⟩

instance : Inhabited Attributes := ⟨empty⟩

def insertEntry (name : String) (value : AttributeValue) :
    List (String × AttributeValue) → List (String × AttributeValue)
  | [] => [(name, value)]
  | entry :: rest =>
    if name < entry.1 then (name, value) :: entry :: rest
    else if name = entry.1 then (name, value) :: rest
    else entry :: insertEntry name value rest

theorem mem_insertEntry {name : String} {value : AttributeValue} {a : String × AttributeValue}
    {entries : List (String × AttributeValue)} (h : a ∈ insertEntry name value entries) :
    a = (name, value) ∨ a ∈ entries := by
  induction entries with
  | nil => exact .inl (by simpa [insertEntry] using h)
  | cons entry rest ih =>
    rw [insertEntry] at h
    split at h
    · simpa using h
    · split at h
      · rcases List.mem_cons.1 h with h | h
        · exact .inl h
        · exact .inr (List.mem_cons_of_mem _ h)
      · rcases List.mem_cons.1 h with h | h
        · exact .inr (h ▸ List.mem_cons_self)
        · exact (ih h).imp_right (List.mem_cons_of_mem _)

theorem insertEntry_ascending (name : String) (value : AttributeValue)
    {entries : List (String × AttributeValue)} (h : entries.Pairwise fun a b => a.1 < b.1) :
    (insertEntry name value entries).Pairwise fun a b => a.1 < b.1 := by
  induction entries with
  | nil => simp [insertEntry]
  | cons entry rest ih =>
    obtain ⟨hhead, htail⟩ := List.pairwise_cons.1 h
    rw [insertEntry]
    split
    next hlt =>
      refine List.pairwise_cons.2 ⟨fun a ha => ?_, h⟩
      rcases List.mem_cons.1 ha with rfl | ha
      · exact hlt
      · exact String.lt_trans hlt (hhead a ha)
    next hlt =>
      split
      next heq => exact List.pairwise_cons.2 ⟨heq ▸ hhead, htail⟩
      next hne =>
        refine List.pairwise_cons.2 ⟨fun a ha => ?_, ih htail⟩
        rcases mem_insertEntry ha with rfl | ha
        · exact Std.lt_of_le_of_ne (Std.not_lt.1 hlt) (Ne.symm hne)
        · exact hhead a ha

/-- Sets a named value, in place of an earlier one. -/
def insert (a : Attributes) (name : String) (value : AttributeValue) : Attributes :=
  ⟨insertEntry name value a.entries, insertEntry_ascending name value a.ascending⟩

/-- Of several values for one name the last counts. -/
def ofList (entries : List (String × AttributeValue)) : Attributes :=
  entries.foldl (fun a entry => a.insert entry.1 entry.2) empty

def get? (a : Attributes) (name : String) : Option AttributeValue := a.entries.lookup name

/-- The value of a name, if it is a text. -/
def text? (a : Attributes) (name : String) : Option String := (a.get? name).bind (·.text?)

end Attributes

end SyntaxOutline
