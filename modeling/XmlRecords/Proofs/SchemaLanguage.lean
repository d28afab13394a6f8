import XmlRecords.Proofs.JsonGrammar
import XmlRecords.Proofs.RereadNames
import XmlRecords.Proofs.SpelledTypes

/-!
# The language of schemas

A written type is valid if every name in it is that of a primitive or of a record
that has begun, no record begins twice, and all else that is named is known.  A text
is read as a schema just if it begins with a JSON value that spells a valid type.
Nothing is asked of what follows the value, so a text need not be JSON to be read.
-/

namespace XmlRecords

/-- A name stands for a primitive, or for a record that has begun. -/
def IsTypeName (begun : List String) (name : String) : Prop :=
  (∃ kind : Primitive, kind.name = name) ∨ name ∈ begun

mutual

/-- A type is valid where some records have begun, and these have begun at its
end. -/
inductive TypeText.Valid : List String → TypeText → List String → Prop where
  | name {begun : List String} {name : String} (known : IsTypeName begun name) :
      Valid begun (.name name) begun
  | optional {begun after : List String} {type : TypeText}
      (inner : Valid begun type after) :
      Valid begun (.union [.name "null", type]) after
  | record {begun after : List String} {title : String}
      (new : title ∉ begun) (ns : Option String) (source : RecordSource)
      {fields : List FieldText}
      (each : ValidFields (title :: begun) fields after) :
      Valid begun (.record title ns (SchemaWriter.sourceText source) fields)
        after
  | array {begun after : List String} {type : TypeText}
      (inner : Valid begun type after) : Valid begun (.array type) after
  | map {begun after : List String} {type : TypeText}
      (inner : Valid begun type after) : Valid begun (.map type) after
  | long {begun : List String} {logicalType : Option String}
      (known : logicalType ∈ [none, some timestampMillisName]) :
      Valid begun (.long logicalType) begun
  | bytes {begun : List String} {xmlEncoding : Option String}
      (known : xmlEncoding ∈ [none, some "base64", some "hex"]) :
      Valid begun (.bytes xmlEncoding) begun
  | plain {begun : List String} {kind : String} (known : IsTypeName begun kind) :
      Valid begun (.plain kind) begun

/-- Fields are valid one after the other: their origins are those that can be read
back, and each type is valid where the records of those before have begun. -/
inductive TypeText.ValidFields :
    List String → List FieldText → List String → Prop where
  | nil {begun : List String} : ValidFields begun [] begun
  | cons {begun between after : List String} (title : String) {origin : Origin}
      (plain : ∀ name ∈ origin.name?, name.Plain) {type : TypeText}
      (nullDefault : Bool) {fields : List FieldText}
      (first : Valid begun type between)
      (others : ValidFields between fields after) :
      ValidFields begun
        (.field title type origin.provenance nullDefault :: fields) after

end

/-- The text begins with a schema: up to white space, with a JSON value that nests at
most 127 levels and spells a valid type. -/
def BeginsSchema (text rest : List Char) : Prop :=
  ∃ start json type after, Json.Spaced text start ∧
    Json.Begins start json rest ∧ json.nesting ≤ Json.maxNesting ∧
      json.Spells Json.IsUnion type ∧ TypeText.Valid [] type after

/-! ## Known names -/

theorem Primitive.ofName?_isSome_iff {name : String} :
    (ofName? name).isSome ↔ ∃ kind : Primitive, kind.name = name := by
  constructor
  · intro known
    obtain ⟨kind, found⟩ := Option.isSome_iff_exists.1 known
    rw [ofName?] at found
    have same := List.find?_some found
    exact ⟨kind, beq_iff_eq.1 same⟩
  · rintro ⟨kind, rfl⟩
    cases kind <;> rfl

theorem SchemaReader.sourceText_of_sourceNamed? {source : Option String}
    {kind : RecordSource} (named : sourceNamed? source = some kind) :
    SchemaWriter.sourceText kind = source := by
  unfold sourceNamed? at named
  split at named <;> cases named <;> rfl

namespace SchemaReader

/-- The names of the records that have begun. -/
def Progress.begun (p : Progress) : List String := p.records.map (·.1)

theorem Progress.lookup_eq_none_iff {p : Progress} {name : String} :
    p.records.lookup name = none ↔ name ∉ p.begun := by
  rw [List.lookup_eq_none_iff, begun, List.mem_map]
  constructor
  · rintro absent ⟨record, listed, rfl⟩
    simpa using absent record listed
  · intro absent record listed
    have other : name ≠ record.1 := fun same => absent ⟨record, listed, same.symm⟩
    simpa using other

/-- A reader succeeds just if it leads on from the records that have begun, to those
that have begun at its end.  If it fails, it reports a fault in the format. -/
structure Follows {α : Type} (reader : Read α)
    (leads : List String → List String → Prop) : Prop where
  sound : ∀ {p q : Progress} {a : α}, reader.run p = .ok (a, q) →
    leads p.begun q.begun
  complete : ∀ (p : Progress) {after : List String}, leads p.begun after →
    ∃ a q, reader.run p = .ok (a, q) ∧ q.begun = after
  refuses : ∀ {p : Progress} {e : Error}, reader.run p = .error e →
    ∃ fault, e = .format fault

namespace Follows

variable {α β : Type} {reader : Read α} {next : α → Read β}
  {leads leads' : List String → List String → Prop}

/-- A reader that always succeeds and begins no record leads nowhere else. -/
theorem of_ends (ends : ∀ p : Progress, ∃ a q,
    reader.run p = .ok (a, q) ∧ q.begun = p.begun) :
    Follows reader fun begun after => after = begun where
  sound {p q a} ended := by
    obtain ⟨a', q', ended', same⟩ := ends p
    cases ended.symm.trans ended'
    exact same
  complete p after same := by
    obtain rfl := same
    exact ends p
  refuses {p e} ended := by
    obtain ⟨a, q, ended', _⟩ := ends p
    cases ended.symm.trans ended'

theorem pure (a : α) :
    Follows (pure a : Read α) fun begun after => after = begun :=
  .of_ends fun p => ⟨a, p, rfl, rfl⟩

theorem fail (fault : FormatFault) :
    Follows (fail fault : Read α) fun _ _ => False where
  sound ended := absurd ended Run.throw_ne_ok
  complete _ _ impossible := impossible.elim
  refuses ended := by
    cases ended
    exact ⟨fault, rfl⟩

theorem bind (first : Follows reader leads)
    (later : ∀ a, Follows (next a) leads') :
    Follows (reader >>= next) fun begun after =>
      ∃ between, leads begun between ∧ leads' between after where
  sound ended := by
    obtain ⟨a, between, here, there⟩ := Run.bind_eq_ok.1 ended
    exact ⟨between.begun, first.sound here, (later a).sound there⟩
  complete p after := by
    rintro ⟨between, here, there⟩
    obtain ⟨a, q, ended, rfl⟩ := first.complete p here
    obtain ⟨b, r, ended', same⟩ := (later a).complete q there
    exact ⟨b, r, Run.bind_eq_ok.2 ⟨a, q, ended, ended'⟩, same⟩
  refuses ended := by
    rcases Run.bind_eq_error.1 ended with here | ⟨a, between, -, there⟩
    · exact first.refuses here
    · exact (later a).refuses there

theorem congr (follows : Follows reader leads)
    (same : ∀ begun after, leads begun after ↔ leads' begun after) :
    Follows reader leads' where
  sound ended := (same _ _).1 (follows.sound ended)
  complete p _ leads := follows.complete p ((same _ _).2 leads)
  refuses := follows.refuses

end Follows

theorem follows_addNode (node : Node) :
    Follows (addNode node) fun begun after => after = begun :=
  .of_ends fun _ => ⟨_, _, rfl, rfl⟩

theorem follows_setFields (id : Nat) (fields : List Field) :
    Follows (do
      modify fun p => { p with graph := p.graph.setFields id fields }
      return id) fun begun after => after = begun :=
  .of_ends fun _ => ⟨_, _, rfl, rfl⟩

theorem follows_primitiveNode (kind : Primitive) (logical : Option Logical) :
    Follows (primitiveNode kind logical) fun begun after => after = begun := by
  refine .of_ends fun p => ?_
  rw [primitiveNode, Run.get_bind]
  cases p.primitives.lookup (kind, logical) with
  | some id => exact ⟨id, p, rfl, rfl⟩
  | none => exact ⟨_, _, rfl, rfl⟩

theorem follows_namedNode (name : String) :
    Follows (namedNode name) fun begun after =>
      IsTypeName begun name ∧ after = begun := by
  unfold namedNode
  split
  · next kind known =>
      refine (follows_primitiveNode kind none).congr fun begun after =>
        (and_iff_right (.inl ?_)).symm
      exact Primitive.ofName?_isSome_iff.1 (by rw [known]; rfl)
  · next unknown =>
      -- The name of a primitive never stands for a record, even if one has it.
      have noPrimitive : ¬ ∃ kind : Primitive, kind.name = name := by
        rw [← Primitive.ofName?_isSome_iff, unknown]
        exact Bool.false_ne_true
      constructor
      · intro p q id ended
        rw [Run.get_bind] at ended
        split at ended
        · next known =>
            obtain ⟨-, rfl⟩ := Run.pure_eq_ok.1 ended
            refine ⟨.inr ?_, rfl⟩
            by_contra absent
            rw [Progress.lookup_eq_none_iff.2 absent] at known
            cases known
        · exact absurd ended Run.throw_ne_ok
      · rintro p _ ⟨known, rfl⟩
        rw [Run.get_bind]
        cases found : p.records.lookup name with
        | some id => exact ⟨id, p, rfl, rfl⟩
        | none =>
            exact absurd (known.resolve_left noPrimitive)
              (Progress.lookup_eq_none_iff.1 found)
      · intro p e ended
        rw [Run.get_bind] at ended
        split at ended
        · cases ended
        · exact (Follows.fail _).refuses ended

theorem follows_longNode (logicalType : Option String) :
    Follows (longNode logicalType) fun begun after =>
      logicalType ∈ [none, some timestampMillisName] ∧ after = begun := by
  unfold longNode
  split
  · exact (follows_primitiveNode .long none).congr fun _ _ => by simp
  · split
    · next known =>
        exact (follows_primitiveNode .long _).congr fun _ _ => by simp [known]
    · next unknown =>
        exact (Follows.fail _).congr fun _ _ => by simp [unknown]

theorem follows_bytesNode (xmlEncoding : Option String) :
    Follows (bytesNode xmlEncoding) fun begun after =>
      xmlEncoding ∈ [none, some "base64", some "hex"] ∧ after = begun := by
  unfold bytesNode
  split
  · exact (follows_primitiveNode .bytes _).congr fun _ _ => by simp
  · exact (follows_primitiveNode .bytes _).congr fun _ _ => by simp
  · exact (follows_primitiveNode .bytes _).congr fun _ _ => by simp
  · next notBase64 notHex =>
      refine (Follows.fail _).congr fun _ _ => iff_of_false id ?_
      rintro ⟨known, -⟩
      simp only [List.mem_cons, Option.some.injEq, reduceCtorEq, false_or,
        List.not_mem_nil, or_false] at known
      exact known.elim notBase64 notHex

theorem follows_beginRecord (title : String) (ns source : Option String) :
    Follows (beginRecord title ns source) fun begun after =>
      title ∉ begun ∧ (∃ kind, SchemaWriter.sourceText kind = source) ∧
        after = title :: begun where
  sound ended := by
    obtain ⟨absent, kind, named, rfl, rfl⟩ := beginRecord_eq_ok.1 ended
    exact ⟨Progress.lookup_eq_none_iff.1 absent,
      ⟨kind, sourceText_of_sourceNamed? named⟩, rfl⟩
  complete p after := by
    rintro ⟨new, ⟨kind, rfl⟩, rfl⟩
    exact ⟨_, _, beginRecord_eq_ok.2 ⟨Progress.lookup_eq_none_iff.2 new, kind,
      sourceNamed?_sourceText kind, rfl, rfl⟩, rfl⟩
  refuses {p e} ended := by
    rw [beginRecord, Run.get_bind] at ended
    dsimp only at ended
    split at ended
    · cases ended
      exact ⟨_, rfl⟩
    · split at ended
      · exact (Follows.fail _).refuses ended
      · cases ended

/-- Nothing but a union of null and a type is read as a union. -/
theorem follows_badUnion {arms : List TypeText}
    (bad : ∀ inner, arms ≠ [.name "null", inner]) :
    Follows (typeNode (.union arms)) (TypeText.Valid · (.union arms) ·) := by
  rw [typeNode.eq_3 arms bad]
  refine (Follows.fail _).congr fun _ _ => iff_of_false id ?_
  intro valid
  cases valid with
  | optional inner => exact bad _ rfl

mutual

/-- The node of a type is made just if the type is valid. -/
theorem follows_typeNode (type : TypeText) :
    Follows (typeNode type) (TypeText.Valid · type ·) := by
  cases type with
  | name name =>
      refine (follows_namedNode name).congr fun begun after => ?_
      constructor
      · rintro ⟨known, rfl⟩
        exact .name known
      · rintro ⟨known⟩
        exact ⟨known, rfl⟩
  | union arms =>
      by_cases pair : ∃ inner, arms = [.name "null", inner]
      · obtain ⟨inner, rfl⟩ := pair
        rw [typeNode]
        refine ((follows_typeNode inner).bind fun id =>
          follows_addNode (.optional id)).congr fun begun after => ?_
        constructor
        · rintro ⟨_, valid, rfl⟩
          exact .optional valid
        · intro valid
          cases valid with
          | optional inner => exact ⟨after, inner, rfl⟩
      · exact follows_badUnion fun inner same => pair ⟨inner, same⟩
  | record title ns source fields =>
      rw [typeNode]
      refine ((follows_beginRecord title ns source).bind fun id =>
        (follows_fieldNodes title fields).bind fun nodes =>
          follows_setFields id nodes).congr fun begun after => ?_
      constructor
      · rintro ⟨_, ⟨new, ⟨kind, rfl⟩, rfl⟩, _, each, rfl⟩
        exact .record new ns kind each
      · intro valid
        cases valid with
        | record new _ kind each =>
            exact ⟨_, ⟨new, ⟨kind, rfl⟩, rfl⟩, after, each, rfl⟩
  | array items =>
      rw [typeNode]
      refine ((follows_typeNode items).bind fun id =>
        follows_addNode (.array id)).congr fun begun after => ?_
      constructor
      · rintro ⟨_, valid, rfl⟩
        exact .array valid
      · intro valid
        cases valid with
        | array inner => exact ⟨after, inner, rfl⟩
  | map values =>
      rw [typeNode]
      refine ((follows_typeNode values).bind fun id =>
        follows_addNode (.map id)).congr fun begun after => ?_
      constructor
      · rintro ⟨_, valid, rfl⟩
        exact .map valid
      · intro valid
        cases valid with
        | map inner => exact ⟨after, inner, rfl⟩
  | long logicalType =>
      refine (follows_longNode logicalType).congr fun begun after => ?_
      constructor
      · rintro ⟨known, rfl⟩
        exact .long known
      · intro valid
        cases valid with
        | long known => exact ⟨known, rfl⟩
  | bytes xmlEncoding =>
      refine (follows_bytesNode xmlEncoding).congr fun begun after => ?_
      constructor
      · rintro ⟨known, rfl⟩
        exact .bytes known
      · intro valid
        cases valid with
        | bytes known => exact ⟨known, rfl⟩
  | plain kind =>
      refine (follows_namedNode kind).congr fun begun after => ?_
      constructor
      · rintro ⟨known, rfl⟩
        exact .plain known
      · intro valid
        cases valid with
        | plain known => exact ⟨known, rfl⟩

theorem follows_fieldNodes (record : String) (fields : List FieldText) :
    Follows (fieldNodes record fields) (TypeText.ValidFields · fields ·) := by
  match fields with
  | [] =>
      rw [fieldNodes]
      refine (Follows.pure _).congr fun begun after => ?_
      constructor
      · rintro rfl
        exact .nil
      · rintro ⟨⟩
        rfl
  | .field title type source nullDefault :: rest =>
      rw [fieldNodes]
      split
      · next unknown =>
          refine (Follows.fail _).congr fun _ _ => iff_of_false id ?_
          intro valid
          cases valid with
          | cons _ plain _ _ _ =>
              rw [Origin.ofProvenance?_provenance plain] at unknown
              cases unknown
      · next origin known =>
          refine ((follows_typeNode type).bind fun id =>
            (follows_fieldNodes record rest).bind fun nodes =>
              Follows.pure _).congr fun begun after => ?_
          constructor
          · rintro ⟨between, first, _, others, rfl⟩
            obtain rfl := Origin.provenance_of_ofProvenance? known
            exact .cons title (Origin.plain_of_ofProvenance? known) nullDefault
              first others
          · intro valid
            cases valid with
            | cons _ _ _ first others => exact ⟨_, first, after, others, rfl⟩

end

end SchemaReader

/-- No number means a type. -/
theorem Meaning.isNumber_eq_false {json : Json} {type : TypeText}
    (means : (ofJson json).type = some type) : json.isNumber = false := by
  cases json with
  | integer | number => cases means
  | _ => rfl

theorem beginsSchema_iff {text rest : List Char} :
    BeginsSchema text rest ↔ ∃ json type after,
      Json.read text = some (json, rest) ∧
        (Meaning.ofJson json).type = some type ∧ TypeText.Valid [] type after := by
  constructor
  · rintro ⟨start, json, type, after, before, begins, fits, spells, valid⟩
    have means := Meaning.type_ofJson_eq_some_iff.2 spells
    have read := Json.read_of_begins before begins fits fun number => by
      rw [Meaning.isNumber_eq_false means] at number
      cases number
    exact ⟨json, type, after, read, means, valid⟩
  · rintro ⟨json, type, after, read, means, valid⟩
    obtain ⟨start, before, begins, fits⟩ := Json.exists_begins_of_read read
    exact ⟨start, json, type, after, before, begins, fits,
      Meaning.type_ofJson_eq_some_iff.1 means, valid⟩

namespace Graph

/-- A valid type is read as a graph, and every other is at fault. -/
theorem ofTypeText_iff (type : TypeText) :
    ((∃ graph, ofTypeText type = .ok graph) ↔
      ∃ after, TypeText.Valid [] type after) ∧
      ∀ e, ofTypeText type = .error e → ∃ fault, e = .format fault := by
  have follows := SchemaReader.follows_typeNode type
  refine ⟨⟨?_, ?_⟩, ?_⟩
  · rintro ⟨graph, read⟩
    obtain ⟨⟨root, p⟩, ended, _⟩ := Outcome.bind_eq_ok.1 read
    exact ⟨p.begun, follows.sound ended⟩
  · rintro ⟨after, valid⟩
    obtain ⟨root, p, ended, _⟩ := follows.complete {} valid
    exact ⟨_, Outcome.bind_eq_ok.2 ⟨(root, p), ended, rfl⟩⟩
  · intro e read
    rcases Outcome.bind_eq_error.1 read with ended | ⟨_, _, ended⟩
    · exact follows.refuses ended
    · cases ended

/-- A text is read in the same way whatever is written behind it. -/
theorem ofText_append {text : List Char} {graph : Graph}
    (read : ofText text = .ok graph) (more : List Char) :
    ofText (text ++ more) = .ok graph := by
  rw [ofText] at read
  split at read
  · cases read
  · next json rest found =>
      split at read
      · cases read
      · next type means =>
          have noNumber := Meaning.isNumber_eq_false means
          rw [ofText, Json.read_append found noNumber more]
          dsimp only
          rw [means]
          exact read

/-- A text is read just if it begins with a schema, and every other is at fault. -/
theorem ofText_iff (text : List Char) :
    ((∃ graph, ofText text = .ok graph) ↔ ∃ rest, BeginsSchema text rest) ∧
      ∀ e, ofText text = .error e → ∃ fault, e = .format fault := by
  simp only [beginsSchema_iff]
  rw [ofText]
  cases Json.read text with
  | none => simp
  | some found =>
      obtain ⟨json, rest⟩ := found
      have only : (∃ rest' json' type after, some (json, rest) = some (json', rest') ∧
          (Meaning.ofJson json').type = some type ∧ TypeText.Valid [] type after) ↔
          ∃ type after, (Meaning.ofJson json).type = some type ∧
            TypeText.Valid [] type after := by
        constructor
        · rintro ⟨_, _, type, after, same, means, valid⟩
          cases same
          exact ⟨type, after, means, valid⟩
        · rintro ⟨type, after, means, valid⟩
          exact ⟨rest, json, type, after, rfl, means, valid⟩
      rw [only]
      dsimp only
      cases (Meaning.ofJson json).type with
      | none => simp
      | some type => simpa using ofTypeText_iff type

/-- A text is read as a graph just if it begins with a schema.  Whatever is written
behind it, it is read as the same graph.  Every other text has a fault in its
format. -/
theorem ofText_iff_beginsSchema (text : List Char) :
    ((∃ graph, ofText text = .ok graph) ↔ ∃ rest, BeginsSchema text rest) ∧
      (∀ graph, ofText text = .ok graph →
        ∀ more, ofText (text ++ more) = .ok graph) ∧
      ∀ e, ofText text = .error e → ∃ fault, e = .format fault := by
  obtain ⟨accepts, refuses⟩ := ofText_iff text
  exact ⟨accepts, fun _ read more => ofText_append read more, refuses⟩

/-- A name is read as a schema although more than white space follows it. -/
theorem reads_text_with_more :
    (∃ graph, ofText "\"string\" x".toList = .ok graph) ∧
      ¬ ∃ rest, BeginsSchema "\"string\" x".toList rest ∧
        ∀ c ∈ rest, Json.isSpace c := by
  have read : ofText "\"string\" x".toList =
      .ok ⟨#[.primitive .string none], some 0⟩ := by
    decide +kernel
  refine ⟨⟨_, read⟩, ?_⟩
  rintro ⟨rest, begins, blank⟩
  obtain ⟨json, type, after, read, _⟩ := beginsSchema_iff.1 begins
  have found : Json.read "\"string\" x".toList =
      some (.string "string", " x".toList) := rfl
  cases found.symm.trans read
  exact absurd (blank 'x' (by decide)) (by decide)

end Graph

end XmlRecords
