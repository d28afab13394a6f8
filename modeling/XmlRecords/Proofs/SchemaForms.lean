import Mathlib.Data.List.Forall2
import XmlRecords.SchemaText.Reader

/-!
# The forms of written types

A JSON value spells a written type as a name, as a union, or as the description of a
kind of type by the values of its parts, and a field by the values of its parts.  An
array whose items all have the form of types is a union, even if it describes a kind
of type as well.
-/

namespace XmlRecords

namespace Json

/-- The values that a value is made of. -/
def parts : Json → List Json
  | .array items => items
  | .object members => members.map (·.2)
  | _ => []

mutual

/-- What holds of a value if it holds of all its parts holds of every value. -/
theorem induction_parts {motive : Json → Prop}
    (step : ∀ json : Json, (∀ part ∈ json.parts, motive part) → motive json)
    (json : Json) : motive json := by
  cases json with
  | array items => exact step _ (induction_items step items)
  | object members => exact step _ (induction_members step members)
  | _ => exact step _ (by simp [parts])

theorem induction_items {motive : Json → Prop}
    (step : ∀ json : Json, (∀ part ∈ json.parts, motive part) → motive json)
    (items : List Json) : ∀ item ∈ items, motive item := by
  cases items with
  | nil => simp
  | cons item items =>
      exact List.forall_mem_cons.2
        ⟨induction_parts step item, induction_items step items⟩

theorem induction_members {motive : Json → Prop}
    (step : ∀ json : Json, (∀ part ∈ json.parts, motive part) → motive json)
    (members : List (String × Json)) :
    ∀ value ∈ members.map (·.2), motive value := by
  match members with
  | [] => simp
  | (name, value) :: members =>
      exact List.forall_mem_cons.2
        ⟨induction_parts step value, induction_members step members⟩

end

/-! ## Forms -/

/-- A name has a value among members, or none.  It never stands twice. -/
def Gives (members : List (String × Json)) (name : String)
    (value : Option Json) : Prop :=
  (members.filter (·.1 == name)).map (·.2) = value.toList

/-- Items are the values of names in their order.  The last names may be left
without. -/
inductive Orders : List Json → List String → List (Option Json) → Prop where
  | missing (names : List String) : Orders [] names (names.map fun _ => none)
  | item {items : List Json} {names : List String}
      {values : List (Option Json)} (item : Json) (name : String)
      (others : Orders items names values) :
      Orders (item :: items) (name :: names) (some item :: values)

/-- The parts with given names have values in a JSON value: its members, or its
items in the order of the names. -/
inductive Lists : Json → List String → List (Option Json) → Prop where
  | members {members : List (String × Json)} {names : List String}
      {values : List (Option Json)}
      (given : List.Forall₂ (Gives members) names values) :
      Lists (.object members) names values
  | items {items : List Json} {names : List String}
      {values : List (Option Json)} (given : Orders items names values) :
      Lists (.array items) names values

/-- A value tells a kind of type, with the names of its parts: it is the name of the
kind, or its place among the kinds. -/
inductive Tells : Json → String → List String → Prop where
  | name {kind : String} {names : List String}
      (known : (kind, names) ∈ Meaning.kinds) : Tells (.string kind) kind names
  | place {place : Nat} {kind : String} {names : List String}
      (known : Meaning.kinds[place]? = some (kind, names)) :
      Tells (.integer place) kind names

/-- A value describes a kind of type by the values of its parts.  An array does so
only if it is not taken for something else. -/
inductive Describes (taken : List Json → Prop) :
    Json → String → List (Option Json) → Prop where
  | members {members : List (String × Json)} {tag : Json} {kind : String}
      {names : List String} {values : List (Option Json)}
      (tagged : Gives members "type" (some tag)) (tells : Tells tag kind names)
      (given : List.Forall₂ (Gives members) names values) :
      Describes taken (.object members) kind values
  | items {items : List Json} {tag : Json} {kind : String}
      {names : List String} {values : List (Option Json)}
      (tells : Tells tag kind names) (given : Orders items names values)
      (free : ¬ taken (tag :: items)) :
      Describes taken (.array (tag :: items)) kind values

/-- A part is a text, or it is missing or null. -/
inductive OptionalText : Option Json → Option String → Prop where
  | missing : OptionalText none none
  | null : OptionalText (some .null) none
  | text (text : String) : OptionalText (some (.string text)) (some text)

mutual

/-- A value spells a type, where some arrays are taken for unions. -/
inductive Spells (taken : List Json → Prop) : Json → TypeText → Prop where
  | name (text : String) : Spells taken (.string text) (.name text)
  | union {items : List Json} {arms : List TypeText}
      (each : List.Forall₂ (Spells taken) items arms) :
      Spells taken (.array items) (.union arms)
  | record {json : Json} {title : String} {space origin : Option Json}
      {ns source : Option String} {items : List Json} {fields : List FieldText}
      (described : Describes taken json "record"
        [some (.string title), space, origin, some (.array items)])
      (inSpace : OptionalText space ns) (known : OptionalText origin source)
      (each : List.Forall₂ (SpellsField taken) items fields) :
      Spells taken json (.record title ns source fields)
  | array {json items : Json} {type : TypeText}
      (described : Describes taken json "array" [some items])
      (inner : Spells taken items type) : Spells taken json (.array type)
  | map {json values : Json} {type : TypeText}
      (described : Describes taken json "map" [some values])
      (inner : Spells taken values type) : Spells taken json (.map type)
  | long {json : Json} {meaning : Option Json} {logicalType : Option String}
      (described : Describes taken json "long" [meaning])
      (text : OptionalText meaning logicalType) :
      Spells taken json (.long logicalType)
  | bytes {json : Json} {encoding : Option Json} {xmlEncoding : Option String}
      (described : Describes taken json "bytes" [encoding])
      (text : OptionalText encoding xmlEncoding) :
      Spells taken json (.bytes xmlEncoding)
  | plain {json : Json} {kind : String}
      (described : Describes taken json kind []) :
      Spells taken json (.plain kind)

/-- A value spells a field, whatever its default. -/
inductive SpellsField (taken : List Json → Prop) : Json → FieldText → Prop where
  | field {json type : Json} {title source : String} {fallback : Option Json}
      {text : TypeText}
      (listed : Lists json Meaning.fieldMembers
        [some (.string title), some type, some (.string source), fallback])
      (inner : Spells taken type text) :
      SpellsField taken json (.field title text source false)

end

/-- A value has the form of a type if it spells one when arrays are taken either
way. -/
def HasTypeForm (json : Json) : Prop :=
  ∃ type, json.Spells (fun _ => False) type

/-- An array is a union if all its items have the form of types. -/
def IsUnion (items : List Json) : Prop := ∀ item ∈ items, item.HasTypeForm

/-! ## The values of parts -/

theorem Orders.length_eq {items : List Json} {names : List String}
    {values : List (Option Json)} (given : Orders items names values) :
    values.length = names.length := by
  induction given with
  | missing => exact List.length_map _
  | item _ _ _ ih => rw [List.length_cons, List.length_cons, ih]

theorem Lists.length_eq {json : Json} {names : List String}
    {values : List (Option Json)} (listed : Lists json names values) :
    values.length = names.length := by
  cases listed with
  | members given => exact given.length_eq.symm
  | items given => exact given.length_eq

theorem Gives.mem {members : List (String × Json)} {name : String}
    {value : Json} (given : Gives members name (some value)) :
    value ∈ members.map (·.2) := by
  have among : value ∈ (members.filter (·.1 == name)).map (·.2) := by
    rw [given]
    exact List.mem_singleton_self value
  exact List.map_subset _ (List.filter_subset_self _) among

theorem Orders.mem {items : List Json} {names : List String}
    {values : List (Option Json)} (given : Orders items names values)
    {value : Json} (among : some value ∈ values) : value ∈ items := by
  induction given with
  | missing => simp at among
  | item item _ _ ih =>
      rcases List.mem_cons.1 among with same | among
      · cases same
        exact List.mem_cons_self
      · exact List.mem_cons_of_mem _ (ih among)

/-- The values of parts with names are parts. -/
theorem Lists.mem_parts {json value : Json} {names : List String}
    {values : List (Option Json)} (listed : Lists json names values)
    (among : some value ∈ values) : value ∈ json.parts := by
  cases listed with
  | items given => exact given.mem among
  | @members members _ _ given =>
      induction given with
      | nil => cases among
      | cons first _ ih =>
          rcases List.mem_cons.1 among with same | among
          · cases same
            exact first.mem
          · exact ih among

theorem Describes.mem_parts {taken : List Json → Prop} {json value : Json}
    {kind : String} {values : List (Option Json)}
    (described : Describes taken json kind values)
    (among : some value ∈ values) : value ∈ json.parts := by
  cases described with
  | members _ _ given => exact (Lists.members given).mem_parts among
  | items _ given _ => exact List.mem_cons_of_mem _ (given.mem among)

theorem Describes.mono {taken taken' : List Json → Prop} {json : Json}
    {kind : String} {values : List (Option Json)}
    (described : Describes taken json kind values)
    (weaker : ∀ items, taken' items → taken items) :
    Describes taken' json kind values := by
  cases described with
  | members tagged tells given => exact .members tagged tells given
  | items tells given free =>
      exact .items tells given fun met => free (weaker _ met)

theorem Tells.mem_kinds {tag : Json} {kind : String} {names : List String}
    (tells : Tells tag kind names) : (kind, names) ∈ Meaning.kinds := by
  cases tells with
  | name known => exact known
  | place known => exact List.mem_of_getElem? known

theorem Describes.exists_mem_kinds {taken : List Json → Prop} {json : Json}
    {kind : String} {values : List (Option Json)}
    (described : Describes taken json kind values) :
    ∃ names, (kind, names) ∈ Meaning.kinds ∧ values.length = names.length := by
  cases described with
  | members _ tells given => exact ⟨_, tells.mem_kinds, given.length_eq.symm⟩
  | items tells given _ => exact ⟨_, tells.mem_kinds, given.length_eq⟩

end Json

end XmlRecords
