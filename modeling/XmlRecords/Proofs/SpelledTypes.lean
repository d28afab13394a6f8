import XmlRecords.Proofs.SchemaForms

/-!
# Types that values mean and spell

What a JSON value means is worked out for all that it may stand for.  It means a
type just if it spells the type.  That it means some type at all does not depend on
which arrays are taken for unions, so this is settled first, and by it which arrays
are unions.
-/

namespace XmlRecords

namespace Meaning

open Json

/-! ## What parts mean -/

@[simp]
theorem json_ofJson (json : Json) : (ofJson json).json = json := by
  cases json <;> rfl

theorem ofJsonMembers_eq_map (members : List (String × Json)) :
    ofJsonMembers members =
      members.map fun member => (member.1, ofJson member.2) := by
  induction members with
  | nil => rfl
  | cons member members ih => rw [ofJsonMembers, ih, List.map_cons]

/-- What the values of parts mean. -/
def ofValues (values : List (Option Json)) : List (Option Meaning) :=
  values.map fun value => value.map ofJson

theorem exists_of_ofValues_eq_singleton {values : List (Option Json)}
    {m : Meaning} (same : ofValues values = [some m]) :
    ∃ json, values = [some json] ∧ ofJson json = m := by
  obtain ⟨value, rfl, meant⟩ := List.map_eq_singleton_iff.1 same
  obtain ⟨json, rfl, rfl⟩ := Option.map_eq_some_iff.1 meant
  exact ⟨json, rfl, rfl⟩

theorem filter_ofJsonMembers (members : List (String × Json)) (name : String) :
    ((ofJsonMembers members).filter fun (key, _) => key == name) =
      (members.filter (·.1 == name)).map
        fun member => (member.1, ofJson member.2) := by
  rw [ofJsonMembers_eq_map, List.filter_map]
  rfl

/-- A name with a value adds the meaning of the value. -/
theorem namedMembers?_of_gives {members : List (String × Json)} {name : String}
    {value : Option Json} (given : Gives members name value)
    (names : List String) :
    namedMembers? (ofJsonMembers members) (name :: names) =
      (namedMembers? (ofJsonMembers members) names).map
        (value.map ofJson :: ·) := by
  rw [namedMembers?, filter_ofJsonMembers]
  cases value with
  | none =>
      rw [List.map_eq_nil_iff.1 given]
      rfl
  | some value =>
      obtain ⟨member, single, rfl⟩ := List.map_eq_singleton_iff.1 given
      rw [single]
      rfl

/-- A name that stands twice is refused. -/
theorem exists_gives_of_namedMembers? {members : List (String × Json)}
    {name : String} {names : List String} {meanings : List (Option Meaning)}
    (found : namedMembers? (ofJsonMembers members) (name :: names) =
      some meanings) :
    ∃ value, Gives members name value := by
  rw [namedMembers?, filter_ofJsonMembers] at found
  unfold Gives
  generalize members.filter (·.1 == name) = named at found ⊢
  rcases named with _ | ⟨member, _ | _⟩
  · exact ⟨none, rfl⟩
  · exact ⟨some member.2, rfl⟩
  · cases found

theorem namedMembers?_eq_some_iff {members : List (String × Json)}
    {names : List String} {meanings : List (Option Meaning)} :
    namedMembers? (ofJsonMembers members) names = some meanings ↔
      ∃ values, List.Forall₂ (Gives members) names values ∧
        ofValues values = meanings := by
  induction names generalizing meanings with
  | nil => simp [namedMembers?, ofValues]
  | cons name names ih =>
      constructor
      · intro found
        obtain ⟨value, given⟩ := exists_gives_of_namedMembers? found
        rw [namedMembers?_of_gives given] at found
        obtain ⟨others, rest, rfl⟩ := Option.map_eq_some_iff.1 found
        obtain ⟨values, each, rfl⟩ := ih.1 rest
        exact ⟨value :: values, .cons given each, rfl⟩
      · rintro ⟨values, each, rfl⟩
        cases each with
        | cons given others =>
            rw [namedMembers?_of_gives given, ih.2 ⟨_, others, rfl⟩]
            rfl

theorem orderedMembers?_eq_some_iff {items : List Json} {names : List String}
    {meanings : List (Option Meaning)} :
    orderedMembers? (ofJsonItems items) names = some meanings ↔
      ∃ values, Orders items names values ∧ ofValues values = meanings := by
  constructor
  · intro found
    induction items generalizing names meanings with
    | nil =>
        cases found
        exact ⟨_, .missing names, by simp [ofValues]⟩
    | cons item items ih =>
        cases names with
        | nil => cases found
        | cons name names =>
            obtain ⟨others, rest, rfl⟩ := Option.map_eq_some_iff.1 found
            obtain ⟨values, given, rfl⟩ := ih rest
            exact ⟨_, .item item name given, rfl⟩
  · rintro ⟨values, given, rfl⟩
    induction given with
    | missing names => simp [ofJsonItems, orderedMembers?, ofValues]
    | item item name _ ih =>
        rw [ofJsonItems, orderedMembers?, ih]
        rfl

theorem kind?_eq_some_iff {tag : Json} {kind : String} {names : List String} :
    (ofJson tag).kind? = some (kind, names) ↔ Tells tag kind names := by
  rw [kind?, json_ofJson]
  constructor
  · intro told
    split at told
    · next name =>
        have same := List.find?_some told
        obtain rfl := beq_iff_eq.1 same
        exact .name (List.mem_of_find?_eq_some told)
    · next place =>
        split at told
        · cases told
        · next counts =>
            obtain ⟨place, rfl⟩ := Int.eq_ofNat_of_zero_le (Int.not_lt.1 counts)
            exact .place told
    · cases told
  · rintro (known | known)
    · have told : ∀ entry ∈ kinds, kinds.find? (·.1 == entry.1) = some entry := by
        decide
      exact told _ known
    · dsimp only
      rw [if_neg (by omega)]
      exact known

theorem optionalText?_eq_some_iff {value : Option Json} {text : Option String} :
    optionalText? (value.map ofJson) = some text ↔ OptionalText value text := by
  constructor
  · intro meant
    cases value with
    | none =>
        cases meant
        exact .missing
    | some json =>
        rw [Option.map_some, optionalText?, json_ofJson] at meant
        split at meant
        · cases meant
          exact .null
        · cases meant
          exact .text _
        · cases meant
  · rintro (_ | _ | _) <;> rfl

theorem text?_eq_some_iff {json : Json} {text : String} :
    (ofJson json).text? = some text ↔ json = .string text := by
  rw [text?, json_ofJson]
  constructor
  · intro meant
    split at meant
    · cases meant
      rfl
    · cases meant
  · rintro rfl
    rfl

/-! ## Kinds of types -/

/-- Arrays are taken for unions if each of their items means a type. -/
def TakenForUnion (items : List Json) : Prop :=
  ((ofJsonItems items).mapM Meaning.type).isSome

/-- What describes a kind of type means the type of the kind. -/
theorem type_ofJson_of_describes {json : Json} {kind : String}
    {values : List (Option Json)}
    (described : Describes TakenForUnion json kind values) :
    (ofJson json).type = describedType? kind (ofValues values) := by
  cases described with
  | @members members tag _ names _ tagged tells given =>
      have found : namedMembers? (ofJsonMembers members) ["type"] =
          some [some (ofJson tag)] :=
        namedMembers?_eq_some_iff.2 ⟨[some tag], .cons tagged .nil, rfl⟩
      have rest := namedMembers?_eq_some_iff.2 ⟨values, given, rfl⟩
      rw [ofJson, ofMembers]
      simp [found, kind?_eq_some_iff.2 tells, rest]
  | @items items tag _ names _ tells given free =>
      have rest := orderedMembers?_eq_some_iff.2 ⟨values, given, rfl⟩
      have noUnion : (ofJsonItems (tag :: items)).mapM (·.type) = none :=
        Option.not_isSome_iff_eq_none.1 free
      rw [ofJson, ofItems.eq_def]
      dsimp only
      rw [noUnion]
      simp [kind?_eq_some_iff.2 tells, rest, ofJsonItems]

/-- A type is meant by a text, by an array of types, or by what describes a kind of
type. -/
theorem type_ofJson_cases {json : Json} {type : TypeText}
    (means : (ofJson json).type = some type) :
    (∃ text, json = .string text ∧ type = .name text) ∨
      (∃ items arms, json = .array items ∧ type = .union arms ∧
        (ofJsonItems items).mapM Meaning.type = some arms) ∨
      ∃ kind names values, (kind, names) ∈ kinds ∧
        Describes TakenForUnion json kind values ∧
          values.length = names.length ∧
            describedType? kind (ofValues values) = some type := by
  cases json with
  | string text =>
      cases means
      exact .inl ⟨text, rfl, rfl⟩
  | array items =>
      rw [ofJson, ofItems.eq_def] at means
      dsimp only at means
      split at means
      · next arms union =>
          cases means
          exact .inr (.inl ⟨items, arms, rfl, rfl, union⟩)
      · next noUnion =>
          cases items with
          | nil => cases noUnion
          | cons tag items =>
              rw [ofJsonItems] at means
              obtain ⟨⟨kind, names⟩, told, means⟩ := Option.bind_eq_some_iff.1 means
              obtain ⟨meanings, found, means⟩ := Option.bind_eq_some_iff.1 means
              obtain ⟨values, given, rfl⟩ := orderedMembers?_eq_some_iff.1 found
              have tells := kind?_eq_some_iff.1 told
              exact .inr (.inr ⟨kind, names, values, tells.mem_kinds,
                .items tells given (by simp [TakenForUnion, noUnion]),
                given.length_eq, means⟩)
  | object members =>
      rw [ofJson, ofMembers] at means
      dsimp only at means
      split at means
      · next tag found =>
          obtain ⟨tags, tagged, same⟩ := namedMembers?_eq_some_iff.1 found
          obtain ⟨tag', rfl, rfl⟩ := exists_of_ofValues_eq_singleton same
          obtain ⟨⟨kind, names⟩, told, means⟩ := Option.bind_eq_some_iff.1 means
          obtain ⟨meanings, found', means⟩ := Option.bind_eq_some_iff.1 means
          obtain ⟨values, given, rfl⟩ := namedMembers?_eq_some_iff.1 found'
          have tells := kind?_eq_some_iff.1 told
          exact .inr (.inr ⟨kind, names, values, tells.mem_kinds,
            .members (List.forall₂_cons.1 tagged).1 tells given,
            given.length_eq.symm, means⟩)
      · cases means
  | _ => cases means

variable {taken : List Json → Prop} {json : Json}

/-- Whatever a value means, it spells. -/
structure SpelledOut (taken : List Json → Prop) (json : Json) : Prop where
  type : ∀ type, (ofJson json).type = some type → Spells taken json type
  field : ∀ field, (ofJson json).field = some field →
    SpellsField taken json field
  fields : ∀ fields, (ofJson json).fields = some fields →
    ∃ items, json = .array items ∧
      List.Forall₂ (SpellsField taken) items fields

/-- The type of a kind is spelled if the values of its parts are. -/
theorem spells_of_describedType? {kind : String} {names : List String}
    {values : List (Option Json)} {type : TypeText}
    (known : (kind, names) ∈ kinds) (described : Describes taken json kind values)
    (length : values.length = names.length)
    (inside : ∀ value, some value ∈ values → SpelledOut taken value)
    (means : describedType? kind (ofValues values) = some type) :
    Spells taken json type := by
  simp only [kinds, List.mem_cons, Prod.mk.injEq, List.not_mem_nil, or_false]
    at known
  rcases known with ⟨rfl, rfl⟩ | ⟨rfl, rfl⟩ | ⟨rfl, rfl⟩ | ⟨rfl, rfl⟩ |
    ⟨rfl, rfl⟩ | ⟨rfl, rfl⟩ | ⟨rfl, rfl⟩ | ⟨rfl, rfl⟩ | ⟨rfl, rfl⟩ | ⟨rfl, rfl⟩
  · obtain ⟨name, space, origin, fields, rfl⟩ := List.length_eq_four.1 length
    rcases name with _ | name
    · cases means
    rcases fields with _ | fields
    · cases means
    obtain ⟨title, named, means⟩ := Option.bind_eq_some_iff.1 means
    obtain ⟨ns, inSpace, means⟩ := Option.bind_eq_some_iff.1 means
    obtain ⟨source, sourced, means⟩ := Option.bind_eq_some_iff.1 means
    obtain ⟨texts, meant, means⟩ := Option.bind_eq_some_iff.1 means
    cases means
    obtain rfl := text?_eq_some_iff.1 named
    obtain ⟨items, rfl, each⟩ := (inside fields (by simp)).fields texts meant
    exact .record described (optionalText?_eq_some_iff.1 inSpace)
      (optionalText?_eq_some_iff.1 sourced) each
  · obtain ⟨_ | items, rfl⟩ := List.length_eq_one_iff.1 length
    · cases means
    · obtain ⟨type, meant, rfl⟩ := Option.map_eq_some_iff.1 means
      exact .array described ((inside items (by simp)).type type meant)
  · obtain ⟨_ | values, rfl⟩ := List.length_eq_one_iff.1 length
    · cases means
    · obtain ⟨type, meant, rfl⟩ := Option.map_eq_some_iff.1 means
      exact .map described ((inside values (by simp)).type type meant)
  · obtain ⟨meaning, rfl⟩ := List.length_eq_one_iff.1 length
    obtain ⟨text, meant, rfl⟩ := Option.map_eq_some_iff.1 means
    exact .long described (optionalText?_eq_some_iff.1 meant)
  · obtain ⟨encoding, rfl⟩ := List.length_eq_one_iff.1 length
    obtain ⟨text, meant, rfl⟩ := Option.map_eq_some_iff.1 means
    exact .bytes described (optionalText?_eq_some_iff.1 meant)
  all_goals
    obtain rfl := List.length_eq_zero_iff.1 length
    cases means
    exact .plain described

/-- Items mean things one by one. -/
theorem forall₂_of_mapM {α : Type} {items : List Json} {wanted : List α}
    {meaning : Meaning → Option α} {spells : Json → α → Prop}
    (inside : ∀ item ∈ items, ∀ a,
      meaning (ofJson item) = some a → spells item a)
    (means : (ofJsonItems items).mapM meaning = some wanted) :
    List.Forall₂ spells items wanted := by
  induction items generalizing wanted with
  | nil =>
      cases means
      exact .nil
  | cons item items ih =>
      rw [ofJsonItems, List.mapM_cons] at means
      obtain ⟨a, first, means⟩ := Option.bind_eq_some_iff.1 means
      obtain ⟨rest, others, means⟩ := Option.bind_eq_some_iff.1 means
      cases means
      have inside := List.forall_mem_cons.1 inside
      exact .cons (inside.1 a first) (ih inside.2 others)

theorem field_ofJson_of_lists {values : List (Option Json)}
    (listed : Lists json fieldMembers values) :
    (ofJson json).field = describedField? (ofValues values) := by
  cases listed with
  | members given =>
      rw [ofJson, ofMembers]
      dsimp only
      rw [namedMembers?_eq_some_iff.2 ⟨values, given, rfl⟩, Option.bind_some]
  | items given =>
      rw [ofJson, ofItems.eq_def]
      dsimp only
      rw [orderedMembers?_eq_some_iff.2 ⟨values, given, rfl⟩, Option.bind_some]

/-- A field is meant by what lists the parts of one. -/
theorem exists_lists_of_field_ofJson {field : FieldText}
    (means : (ofJson json).field = some field) :
    ∃ values, Lists json fieldMembers values ∧
      describedField? (ofValues values) = some field := by
  cases json with
  | array items =>
      rw [ofJson, ofItems.eq_def] at means
      obtain ⟨meanings, found, means⟩ := Option.bind_eq_some_iff.1 means
      obtain ⟨values, given, rfl⟩ := orderedMembers?_eq_some_iff.1 found
      exact ⟨values, .items given, means⟩
  | object members =>
      rw [ofJson, ofMembers] at means
      obtain ⟨meanings, found, means⟩ := Option.bind_eq_some_iff.1 means
      obtain ⟨values, given, rfl⟩ := namedMembers?_eq_some_iff.1 found
      exact ⟨values, .members given, means⟩
  | _ => cases means

theorem spellsField_of_describedField? {values : List (Option Json)}
    {field : FieldText} (listed : Lists json fieldMembers values)
    (inside : ∀ value, some value ∈ values → SpelledOut taken value)
    (means : describedField? (ofValues values) = some field) :
    SpellsField taken json field := by
  obtain ⟨name, type, source, fallback, rfl⟩ :=
    List.length_eq_four.1 listed.length_eq
  rcases name with _ | name
  · cases means
  rcases type with _ | type
  · cases means
  rcases source with _ | source
  · cases means
  obtain ⟨title, named, means⟩ := Option.bind_eq_some_iff.1 means
  obtain ⟨text, meant, means⟩ := Option.bind_eq_some_iff.1 means
  obtain ⟨origin, sourced, means⟩ := Option.bind_eq_some_iff.1 means
  cases means
  obtain rfl := text?_eq_some_iff.1 named
  obtain rfl := text?_eq_some_iff.1 sourced
  exact .field listed ((inside type (by simp)).type text meant)

/-- A value spells whatever it means, if nothing else is taken for a union than what
is one. -/
theorem spelledOut (weaker : ∀ items, taken items → TakenForUnion items)
    (json : Json) : SpelledOut taken json := by
  induction json using induction_parts with
  | step json inside =>
      -- Types, fields and lists of fields go together: the fields of a record are
      -- parts of a part of it.
      constructor
      · intro type means
        rcases type_ofJson_cases means with ⟨text, rfl, rfl⟩ |
          ⟨items, arms, rfl, rfl, union⟩ |
          ⟨kind, names, values, known, described, length, means⟩
        · exact .name text
        · exact .union (forall₂_of_mapM (fun item among => (inside item among).type) union)
        · exact spells_of_describedType? known (described.mono weaker) length
            (fun value among => inside value (described.mem_parts among)) means
      · intro field means
        obtain ⟨values, listed, means⟩ := exists_lists_of_field_ofJson means
        exact spellsField_of_describedField? listed
          (fun value among => inside value (listed.mem_parts among)) means
      · intro fields means
        cases json with
        | array items =>
            rw [ofJson, ofItems.eq_def] at means
            exact ⟨items, rfl,
              forall₂_of_mapM (fun item among => (inside item among).field) means⟩
        | _ => cases means

/-! ## What is spelled is meant -/

/-- Something is found, and it is what is wanted if everything that is a union is
taken for one. -/
structure Finds {α : Type} (taken : List Json → Prop) (found : Option α)
    (wanted : α) : Prop where
  isSome : found.isSome
  eq_some : (∀ items, TakenForUnion items → taken items) → found = some wanted

namespace Finds

variable {α β : Type} {found : Option α} {wanted : α}

theorem some (taken : List Json → Prop) (wanted : α) :
    Finds taken (some wanted) wanted :=
  ⟨rfl, fun _ => rfl⟩

theorem map (finds : Finds taken found wanted) (f : α → β) :
    Finds taken (found.map f) (f wanted) where
  isSome := by
    rw [Option.isSome_map]
    exact finds.isSome
  eq_some covers := by rw [finds.eq_some covers, Option.map_some]

theorem cons {found' : Option (List α)} {wanted' : List α}
    (first : Finds taken found wanted) (others : Finds taken found' wanted') :
    Finds taken (do return (← found) :: (← found')) (wanted :: wanted') where
  isSome := by
    obtain ⟨x, rfl⟩ := Option.isSome_iff_exists.1 first.isSome
    obtain ⟨xs, rfl⟩ := Option.isSome_iff_exists.1 others.isSome
    rfl
  eq_some covers := by
    rw [first.eq_some covers, others.eq_some covers]
    rfl

end Finds

/-- An array of types means their union. -/
theorem type_ofJson_array {items : List Json} {arms : List TypeText}
    (union : (ofJsonItems items).mapM Meaning.type = some arms) :
    (ofJson (.array items)).type = some (.union arms) := by
  rw [ofJson, ofItems.eq_def]
  dsimp only
  rw [show (ofJsonItems items).mapM (·.type) = some arms from union]

/-- What describes a kind of type means something, and the type of the kind unless it
is a union. -/
theorem finds_of_describes {kind : String} {values : List (Option Json)}
    {type : TypeText} (described : Describes taken json kind values)
    (finds : Finds taken (describedType? kind (ofValues values)) type) :
    Finds taken (ofJson json).type type := by
  cases described with
  | members tagged tells given =>
      rwa [type_ofJson_of_describes (.members tagged tells given)]
  | @items items tag _ _ _ tells given free =>
      -- An array of types is a union, whatever kind of type it describes.
      by_cases union : TakenForUnion (tag :: items)
      · obtain ⟨arms, union'⟩ := Option.isSome_iff_exists.1 union
        refine ⟨?_, fun covers => absurd (covers _ union) free⟩
        rw [type_ofJson_array union']
        rfl
      · rwa [type_ofJson_of_describes (.items tells given union)]

/-- The meaning of a record is that of its fields. -/
theorem describedType?_record {title : String} {space origin : Option Json}
    {ns source : Option String} (items : List Json)
    (inSpace : OptionalText space ns) (known : OptionalText origin source) :
    describedType? "record" (ofValues
        [some (.string title), space, origin, some (.array items)]) =
      ((ofJsonItems items).mapM Meaning.field).map
        (.record title ns source) := by
  have named : (ofJson (.string title)).text? = some title := rfl
  have listed : (ofJson (.array items)).fields =
      (ofJsonItems items).mapM Meaning.field := by
    rw [ofJson, ofItems.eq_def]
  simp only [ofValues, List.map_cons, List.map_nil, Option.map_some,
    describedType?, named, optionalText?_eq_some_iff.2 inSpace,
    optionalText?_eq_some_iff.2 known, listed]
  cases (ofJsonItems items).mapM Meaning.field <;> rfl

/-- The meaning of a field is that of its type. -/
theorem describedField?_ofValues (title source : String) (type : Json)
    (fallback : Option Json) :
    describedField? (ofValues
        [some (.string title), some type, some (.string source), fallback]) =
      (ofJson type).type.map fun type => .field title type source false := by
  have named : ∀ text, (ofJson (.string text)).text? = some text := fun _ => rfl
  simp only [ofValues, List.map_cons, List.map_nil, Option.map_some,
    describedField?, named]
  cases (ofJson type).type <;> rfl

/-- A kind without parts means itself. -/
theorem describedType?_nil {kind : String}
    (described : Describes taken json kind []) :
    describedType? kind [] = some (.plain kind) := by
  obtain ⟨names, known, length⟩ := described.exists_mem_kinds
  simp only [kinds, List.mem_cons, Prod.mk.injEq, List.not_mem_nil, or_false]
    at known
  rcases known with ⟨rfl, rfl⟩ | ⟨rfl, rfl⟩ | ⟨rfl, rfl⟩ | ⟨rfl, rfl⟩ |
    ⟨rfl, rfl⟩ | ⟨rfl, rfl⟩ | ⟨rfl, rfl⟩ | ⟨rfl, rfl⟩ | ⟨rfl, rfl⟩ | ⟨rfl, rfl⟩ <;>
    first | rfl | cases length

theorem finds_mapM {α : Type} {items : List Json} {wanted : List α}
    {meaning : Meaning → Option α} {spells : Json → α → Prop}
    (inside : ∀ item ∈ items, ∀ a,
      spells item a → Finds taken (meaning (ofJson item)) a)
    (each : List.Forall₂ spells items wanted) :
    Finds taken ((ofJsonItems items).mapM meaning) wanted := by
  induction each with
  | nil => exact .some taken []
  | cons first _ ih =>
      have inside := List.forall_mem_cons.1 inside
      rw [ofJsonItems, List.mapM_cons]
      exact (inside.1 _ first).cons (ih inside.2)

/-- Whatever a value spells, it means something of the sort. -/
structure FoundOut (taken : List Json → Prop) (json : Json) : Prop where
  type : ∀ type, Spells taken json type → Finds taken (ofJson json).type type
  field : ∀ field, SpellsField taken json field →
    Finds taken (ofJson json).field field
  fields : ∀ items fields, json = .array items →
    List.Forall₂ (SpellsField taken) items fields →
      Finds taken ((ofJsonItems items).mapM Meaning.field) fields

/-- The type of a value is found if its parts are. -/
theorem finds_of_spells {type : TypeText}
    (inside : ∀ part ∈ json.parts, FoundOut taken part)
    (spells : Spells taken json type) :
    Finds taken (ofJson json).type type := by
  cases spells with
  | name text => exact .some taken _
  | @union items arms each =>
      have finds : Finds taken ((ofJsonItems items).mapM Meaning.type) arms :=
        finds_mapM (fun item among => (inside item among).type) each
      obtain ⟨others, union⟩ := Option.isSome_iff_exists.1 finds.isSome
      rw [type_ofJson_array union, ← Option.map_some, ← union]
      exact finds.map TypeText.union
  | @record _ _ _ _ _ _ items _ described inSpace known each =>
      have part := inside (.array items) (described.mem_parts (by simp))
      refine finds_of_describes described ?_
      rw [describedType?_record _ inSpace known]
      exact (part.fields items _ rfl each).map _
  | @array _ items _ described inner =>
      have part := inside items (described.mem_parts (by simp))
      exact finds_of_describes described
        ((part.type _ inner).map TypeText.array)
  | @map _ values _ described inner =>
      have part := inside values (described.mem_parts (by simp))
      exact finds_of_describes described ((part.type _ inner).map TypeText.map)
  | long described text =>
      refine finds_of_describes described ?_
      rw [ofValues, List.map_singleton, describedType?,
        optionalText?_eq_some_iff.2 text]
      exact .some taken _
  | bytes described text =>
      refine finds_of_describes described ?_
      rw [ofValues, List.map_singleton, describedType?,
        optionalText?_eq_some_iff.2 text]
      exact .some taken _
  | plain described =>
      refine finds_of_describes described ?_
      rw [ofValues, List.map_nil, describedType?_nil described]
      exact .some taken _

/-- Every value means what it spells, up to what is taken for a union. -/
theorem foundOut (taken : List Json → Prop) (json : Json) :
    FoundOut taken json := by
  induction json using induction_parts with
  | step json inside =>
      constructor
      · exact fun type => finds_of_spells inside
      · intro field spells
        cases spells with
        | @field _ type _ _ _ _ listed inner =>
            have part := inside type (listed.mem_parts (by simp))
            rw [field_ofJson_of_lists listed, describedField?_ofValues]
            exact (part.type _ inner).map _
      · rintro items fields rfl each
        exact finds_mapM (fun item among => (inside item among).field) each

/-! ## Types by their forms -/

theorem hasTypeForm_iff : json.HasTypeForm ↔ (ofJson json).type.isSome := by
  constructor
  · rintro ⟨type, spells⟩
    exact ((foundOut _ json).type type spells).isSome
  · intro means
    obtain ⟨type, means⟩ := Option.isSome_iff_exists.1 means
    exact ⟨type, (spelledOut (fun _ => False.elim) json).type type means⟩

theorem isUnion_iff {items : List Json} :
    IsUnion items ↔ TakenForUnion items := by
  rw [TakenForUnion, IsUnion]
  induction items with
  | nil => simp [ofJsonItems]
  | cons item items ih =>
      rw [List.forall_mem_cons, ih, hasTypeForm_iff, ofJsonItems, List.mapM_cons]
      cases (ofJson item).type with
      | none => simp
      | some type => cases (ofJsonItems items).mapM Meaning.type <;> simp

/-- A value means a type just if it spells the type. -/
theorem type_ofJson_eq_some_iff {type : TypeText} :
    (ofJson json).type = some type ↔ Spells IsUnion json type := by
  constructor
  · exact fun means =>
      (spelledOut (fun _ => isUnion_iff.1) json).type type means
  · -- Every union is taken for one, so what is found is the type that is spelled.
    exact fun spells =>
      ((foundOut IsUnion json).type type spells).eq_some fun _ => isUnion_iff.2

end Meaning

end XmlRecords
