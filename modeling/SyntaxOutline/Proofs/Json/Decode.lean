import SyntaxOutline.Json.Decode
import SyntaxOutline.Proofs.Json.Weight

/-! # Reading records and lists

A record reads back as its fields, and a list as its items. The value of a field weighs less than
the record, and nests less deep. -/
namespace SyntaxOutline.Json

theorem mapM_eq_some_iff {α β : Type} {f : α → Option β} {xs : List α} {ys : List β} :
    xs.mapM f = some ys ↔ xs.map f = ys.map some := by
  induction xs generalizing ys with
  | nil => cases ys <;> simp
  | cons x rest ih =>
    rw [List.mapM_cons]
    constructor
    · intro h
      obtain ⟨y, hy, h⟩ := Option.bind_eq_some_iff.1 h
      obtain ⟨tail, htail, h⟩ := Option.bind_eq_some_iff.1 h
      obtain rfl := Option.some.inj h
      rw [List.map_cons, List.map_cons, hy, ih.1 htail]
    · intro h
      cases ys with
      | nil => cases h
      | cons y tail =>
        obtain ⟨hy, htail⟩ := List.cons.inj h
        rw [hy, ih.2 htail]
        rfl

/-- What is written item by item is read back item by item. -/
theorem mapM_map_eq_some {α β : Type} {write : α → β} {read : β → Option α} {xs : List α}
    (h : ∀ x ∈ xs, read (write x) = some x) : (xs.map write).mapM read = some xs := by
  rw [mapM_eq_some_iff, List.map_map]
  exact List.map_congr_left h

theorem toNatural?_natural {n bound : Nat} (h : n < bound) :
    (natural n).toNatural? bound = some n := if_pos h

theorem exists_of_mem_mapM {α β : Type} {f : α → Option β} {xs : List α} {ys : List β} {y : β}
    (h : xs.mapM f = some ys) (hy : y ∈ ys) : ∃ x ∈ xs, f x = some y := by
  have hmem : some y ∈ xs.map f := by
    rw [mapM_eq_some_iff.1 h]
    exact List.mem_map_of_mem hy
  exact List.mem_map.1 hmem

theorem toFields?_record (fields : List (String × Json)) :
    (record fields).toFields? = some fields := by
  rw [record, toFields?, mapM_eq_some_iff, List.map_map]
  rfl

/-- A record with known and different names is read as its fields. -/
theorem toRecord?_record {names : List String} {fields : List (String × Json)}
    (hknown : ∀ field ∈ fields, field.1 ∈ names) (hnodup : (fields.map (·.1)).Nodup) :
    (record fields).toRecord? names = some fields := by
  have hfilter : (fields.filter fun field => names.contains field.1) = fields := by
    apply List.filter_eq_self.2
    intro field hfield
    simpa using hknown field hfield
  have hread : (record fields).toRecord? names =
      (record fields).toFields?.bind fun all =>
        let known := all.filter fun field => names.contains field.1
        if (known.map (·.1)).Nodup then some known else none := rfl
  rw [hread, toFields?_record, Option.bind_some, hfilter, if_pos hnodup]

/-- A record that has the first few of the known names, in their order, is read as its fields. -/
theorem toRecord?_record_of_names {names : List String} {fields : List (String × Json)}
    (hnames : fields.map (·.1) <+: names) (hnodup : names.Nodup) :
    (record fields).toRecord? names = some fields := by
  refine toRecord?_record (fun field hfield => ?_) (hnodup.sublist hnames.sublist)
  exact hnames.subset (List.mem_map_of_mem hfield)

theorem mem_of_lookup {fields : List (String × Json)} {name : String} {value : Json}
    (h : fields.lookup name = some value) : (name, value) ∈ fields := by
  obtain ⟨before, after, heq, _⟩ := List.lookup_eq_some_iff.1 h
  rw [heq]
  simp

theorem fieldOr_option_eq_some {α : Type} {fields : List (String × Json)} {name : String}
    {read : Json → Option α} {x : α}
    (h : fieldOr fields name none (toOption? read) = some (some x)) :
    ∃ value, fields.lookup name = some value ∧ read value = some x := by
  unfold fieldOr at h
  split at h
  next value hlookup =>
    unfold toOption? at h
    split at h
    next => cases h
    next =>
      obtain ⟨y, hy, heq⟩ := Option.map_eq_some_iff.1 h
      obtain rfl := Option.some.inj heq
      exact ⟨value, hlookup, hy⟩
  next => cases h

theorem depth_le_depthItems {item : Json} {items : List Json} (h : item ∈ items) :
    item.depth ≤ depthItems items := by
  induction items with
  | nil => cases h
  | cons first rest ih =>
    rw [depthItems]
    rcases List.mem_cons.1 h with rfl | h
    · omega
    · have := ih h
      omega

/-- A list is read back if each of its items is that is written within the nesting allowance. -/
theorem mapM_map_of_depth {α : Type} {write : α → Json} {read : Json → Option α} {xs : List α}
    {nesting : Nat} (hdepth : depthItems (xs.map write) ≤ nesting)
    (h : ∀ x ∈ xs, (write x).depth ≤ nesting → read (write x) = some x) :
    (xs.map write).mapM read = some xs := by
  refine mapM_map_eq_some fun x hx => h x hx ?_
  exact Nat.le_trans (depth_le_depthItems (List.mem_map_of_mem hx)) hdepth

theorem depth_le_depthFields {name : Option String} {value : Json}
    {fields : List (Option String × Json)} (h : (name, value) ∈ fields) :
    value.depth ≤ depthFields fields := by
  induction fields with
  | nil => cases h
  | cons first rest ih =>
    obtain ⟨firstName, firstValue⟩ := first
    rw [depthFields]
    rcases List.mem_cons.1 h with heq | h
    · cases heq
      omega
    · have := ih h
      omega

theorem depth_record_pos (fields : List (String × Json)) : 0 < (record fields).depth := by
  rw [record, depth]
  omega

/-- The value of a field nests less deep than the record. -/
theorem depth_lt_depth_record {name : String} {value : Json} {fields : List (String × Json)}
    (h : (name, value) ∈ fields) : value.depth < (record fields).depth := by
  have hle : value.depth ≤ depthFields (fields.map fun field => (some field.1, field.2)) :=
    depth_le_depthFields (List.mem_map.2 ⟨(name, value), h, rfl⟩)
  rw [record, depth]
  omega

/-- What is left of the nesting allowance of a record suffices for each of its fields. -/
theorem depth_le_of_field {fields : List (String × Json)} {nesting : Nat}
    (hdepth : (record fields).depth ≤ nesting + 1) (name : String) {value : Json}
    (h : (name, value) ∈ fields) : value.depth ≤ nesting := by
  have hlt := depth_lt_depth_record h
  omega

theorem weight_of_toFields? {value field : Json} {fields : List (String × Json)} {name : String}
    (h : value.toFields? = some fields) (hfield : (name, field) ∈ fields) :
    field.weight < value.weight := by
  cases value with
  | object named =>
    obtain ⟨⟨key, inner⟩, hmem, hread⟩ := exists_of_mem_mapM h hfield
    obtain ⟨_, _, heq⟩ := Option.map_eq_some_iff.1 hread
    have hinner : inner = field := (Prod.mk.inj heq).2
    have hle := weight_le_fieldsWeight hmem
    rw [weight, ← hinner]
    omega
  | null => cases h
  | bool _ => cases h
  | number _ => cases h
  | string _ => cases h
  | array _ => cases h

/-- The value of a field weighs less than the record it stands in. -/
theorem weight_of_toRecord? {names : List String} {value field : Json}
    {fields : List (String × Json)} {name : String} (h : value.toRecord? names = some fields)
    (hfield : fields.lookup name = some field) : field.weight < value.weight := by
  have hmem := mem_of_lookup hfield
  unfold toRecord? at h
  split at h
  next items =>
    split at h
    next =>
      obtain rfl := Option.some.inj h
      have hle := weight_le_itemsWeight (List.of_mem_zip hmem).2
      rw [weight]
      omega
    next => cases h
  next =>
    obtain ⟨all, hall, h⟩ := Option.bind_eq_some_iff.1 h
    dsimp only at h
    split at h
    next =>
      obtain rfl := Option.some.inj h
      exact weight_of_toFields? hall (List.mem_filter.1 hmem).1
    next => cases h

end SyntaxOutline.Json
