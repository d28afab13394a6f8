import XmlRecords.Proofs.Reading
import XmlRecords.Proofs.SuitedSlots

/-!
# Content that leaves no trace

A graph that was read from a text need not have the form of one that was lowered:
reading never asks whether the type of a field suits what the field is for.  Where
a wildcard is no map or a repeated group is no array, there is no slot to put a
child or an attribute into, and it is passed over without an error.  In every graph
that was read, this is so at these places and nowhere else.
-/

namespace XmlRecords

/-- Fields of written types are read whatever their names are and wherever else
they come from. -/
theorem SchemaReader.exists_fieldNodes {title : String}
    {texts others : List FieldText} {p q : Progress} {fields : List Field}
    (ended : (fieldNodes title texts).run p = .ok (fields, q))
    (same : others.map (·.type) = texts.map (·.type))
    (known : ∀ other ∈ others, other.origin?.isSome) :
    ∃ renamed, (fieldNodes title others).run p = .ok (renamed, q) ∧
      renamed.map (·.node) = fields.map (·.node) ∧
      renamed.map (·.name) = others.map (·.name) ∧
      renamed.map (some ·.origin) = others.map (·.origin?) := by
  induction texts generalizing others p fields with
  | nil =>
      obtain rfl := List.map_eq_nil_iff.1 same
      rw [fieldNodes] at ended
      obtain ⟨rfl, rfl⟩ := Run.pure_eq_ok.1 ended
      exact ⟨[], by rw [fieldNodes]; rfl, rfl, rfl, rfl⟩
  | cons text rest ih =>
      obtain ⟨label, type, source, null⟩ := text
      obtain ⟨other, later, rfl, sameType, sameTypes⟩ :=
        List.map_eq_cons_iff.1 same
      obtain ⟨label', type', source', null'⟩ := other
      obtain rfl : type' = type := sameType
      obtain ⟨origin', isKnown⟩ :=
        Option.isSome_iff_exists.1 (known _ List.mem_cons_self)
      replace isKnown : Origin.ofProvenance? source' = some origin' := isKnown
      rw [fieldNodes] at ended
      cases origin : Origin.ofProvenance? source with
      | none =>
          rw [origin] at ended
          exact absurd ended Run.throw_ne_ok
      | some from' =>
          rw [origin] at ended
          obtain ⟨node, between, reading, ended⟩ := Run.bind_eq_ok.1 ended
          obtain ⟨fields', last, readingRest, ended⟩ := Run.bind_eq_ok.1 ended
          obtain ⟨rfl, rfl⟩ := Run.pure_eq_ok.1 ended
          obtain ⟨renamed, readingOthers, nodes, names, origins⟩ :=
            ih readingRest sameTypes fun text among =>
              known text (List.mem_cons_of_mem _ among)
          refine ⟨⟨label', origin', node⟩ :: renamed, ?_, ?_, ?_, ?_⟩
          · rw [fieldNodes, isKnown]
            exact Run.bind_eq_ok.2 ⟨node, between, reading,
              Run.bind_eq_ok.2 ⟨renamed, _, readingOthers,
                Run.pure_eq_ok.2 ⟨rfl, rfl⟩⟩⟩
          · rw [List.map_cons, List.map_cons, nodes]
          · rw [List.map_cons, List.map_cons, names]
            rfl
          · rw [List.map_cons, List.map_cons, origins, FieldText.origin?, isKnown]

namespace Graph

theorem setFields_setFields (graph : Graph) (id : Nat)
    (first second : List Field) :
    (graph.setFields id first).setFields id second =
      graph.setFields id second := by
  cases found : graph.record? id with
  | none =>
      have same : ∀ fields, graph.setFields id fields = graph := fun fields => by
        rw [setFields, found]
      rw [same, same]
  | some r =>
      have filled : (graph.setFields id first).record? id =
          some (r.withFields first) := record?_setFields_self found
      rw [setFields, filled]
      simp only [setFields, found, Array.setIfInBounds_setIfInBounds]
      rfl

theorem setFields_root (graph : Graph) (root : Option Nat) (id : Nat)
    (fields : List Field) :
    ({ graph with root } : Graph).setFields id fields =
      { graph.setFields id fields with root } := by
  have same : ({ graph with root } : Graph).record? id = graph.record? id := rfl
  rw [setFields, setFields, same]
  cases graph.record? id <;> rfl

/-- A record that is read is also read with other names of its fields, and with
any other known sources: no type is refused for what its field comes from. -/
theorem exists_ofTypeText_record {title : String} {ns source : Option String}
    {texts : List FieldText} {graph : Graph}
    (read : ofTypeText (.record title ns source texts) = .ok graph)
    {others : List FieldText}
    (same : others.map (·.type) = texts.map (·.type))
    (known : ∀ other ∈ others, other.origin?.isSome) :
    ∃ root r fields, graph.root = some root ∧ graph.record? root = some r ∧
      fields.map (·.node) = r.fields.map (·.node) ∧
      fields.map (·.name) = others.map (·.name) ∧
      fields.map (some ·.origin) = others.map (·.origin?) ∧
      ofTypeText (.record title ns source others) =
        .ok (graph.setFields root fields) := by
  rw [ofTypeText] at read
  obtain ⟨⟨root, progress⟩, ended, finished⟩ := Outcome.bind_eq_ok.1 read
  rw [SchemaReader.typeNode] at ended
  obtain ⟨id, begun, beginning, ended⟩ := Run.bind_eq_ok.1 ended
  obtain ⟨fields, filled, filling, ended⟩ := Run.bind_eq_ok.1 ended
  rw [Run.modify_bind] at ended
  obtain ⟨rfl, rfl⟩ := Run.pure_eq_ok.1 ended
  cases finished
  obtain ⟨sound, _, r, found⟩ := SchemaReader.reads_beginRecord beginning .empty
  obtain ⟨reads, _⟩ := SchemaReader.reads_fieldNodes title texts sound filling
  obtain ⟨r', present, _⟩ := reads.growth.record found
  obtain ⟨renamed, refilling, nodes, names, origins⟩ :=
    SchemaReader.exists_fieldNodes filling same known
  refine ⟨root, r'.withFields fields, renamed, rfl,
    record?_setFields_self present, nodes, names, origins, ?_⟩
  have run : (SchemaReader.typeNode (.record title ns source others)).run {} =
      .ok (root, { filled with
        graph := filled.graph.setFields root renamed }) := by
    rw [SchemaReader.typeNode]
    exact Run.bind_eq_ok.2 ⟨root, begun, beginning,
      Run.bind_eq_ok.2 ⟨renamed, filled, refilling, rfl⟩⟩
  rw [setFields_root, setFields_setFields]
  exact Outcome.bind_eq_ok.2 ⟨_, run, rfl⟩

variable {graph : Graph} {name : QName} {record item : Record} {index : Nat}
  {field : Field} {route : Route} {slots next : Slots}

/-- Decide whether the fields on a route can hold what is put into them: groups
are arrays, and a wildcard is a map. -/
def fits (graph : Graph) : Record → Route → Bool
  | _, .field _ => true
  | record, .group index item rest =>
      graph.isArrayField record index && graph.fits item rest
  | record, .wildcard index => graph.isMapField record index

/-- A child along a route leaves no trace in slots: whatever is in it and whatever
becomes of it, there is no error and the slots come out the same. -/
def LosesChild (graph : Graph) (record : Record) (route : Route) (name : QName)
    (slots : Slots) : Prop :=
  ∃ next, ∀ child : Child, child.element.name = name →
    graph.place child record route slots = .ok next

/-- An attribute leaves no trace in slots: whatever its value, there is no error
and the slots come out the same. -/
def LosesAttribute (graph : Graph) (zone : Zone) (record : Record)
    (name : QName) (slots : Slots) : Prop :=
  ∃ next, ∀ value,
    graph.placeAttribute zone record slots ⟨name, value⟩ = .ok next

theorem innerMarkup_ne (name : QName) :
    (Element.mk name [] []).innerMarkup ≠
      (Element.mk name [] [.text "x"]).innerMarkup := by
  change String.ofList (Text.trimChars []) ≠
    String.ofList (Text.trimChars (Xml.escape "x" ++ []))
  decide

/-- No kind of primitive reads these two texts as the same value. -/
theorem readPrimitive_varies (zone : Zone) (kind : Primitive)
    (logical : Option Logical) {value : Value}
    (first : Value.readPrimitive zone kind logical "true" = .ok value)
    (second : Value.readPrimitive zone kind logical "x" = .ok value) :
    False := by
  have differs := first.trans second.symm
  cases kind with
  | boolean =>
      exact absurd (Value.boolean.inj (Except.ok.inj differs)) (by decide)
  | string =>
      exact absurd (Value.string.inj (Except.ok.inj differs)) (by decide)
  | long =>
      rw [Value.readPrimitive] at second
      split at second <;> cases second
  | bytes =>
      rw [Value.readPrimitive] at second
      split at second <;> cases second
  | int | float | double => cases second

/-- No node reads all texts as the same value. -/
theorem readAttribute_varies (graph : Graph) (zone : Zone) (node : Nat)
    (value : Value) :
    ∃ text, graph.readAttribute zone node text ≠ .ok value := by
  by_contra same
  simp only [not_exists, not_not] at same
  have first := same "true"
  have second := same "x"
  rw [readAttribute] at first second
  split at first
  · next kind logical found =>
      simp only [found] at second
      exact readPrimitive_varies zone kind logical first second
  · cases first

namespace Suited

/-- Where a group on its way is no array, nothing is done with a child. -/
theorem losesChild_of_passes (suited : graph.Suited record slots)
    (passes : graph.Passes name record route)
    (unfit : graph.fits record route = false) :
    graph.LosesChild record route name slots := by
  induction passes generalizing slots with
  | field => cases unfit
  | @group record item index field rest listed isRound inner ih =>
      have group := origin_of_groupItem? isRound
      by_cases held : ∃ items, slots.get? index = some (.array items)
      · have array := ((suited.suitsField listed).group group).1 held
        obtain ⟨items, held⟩ := held
        rw [fits, (isArrayField_eq_true_iff listed).2 array, Bool.true_and]
          at unfit
        cases current : graph.currentRound item rest.index items with
        | mk front round =>
            obtain ⟨suitedRound, _⟩ := currentRound
              (suited.of_mem_items listed isRound held) current
            obtain ⟨filled, same⟩ := ih suitedRound unfit
            refine ⟨slots.put index (.array (front ++ [.record filled])), ?_⟩
            intro child named
            simp only [Graph.place, held, current, same child named]
            rfl
      · refine ⟨slots, fun child _ => ?_⟩
        rw [Graph.place]
        split
        · next items array => exact absurd ⟨items, array⟩ held
        · rfl

/-- Where all groups on its way are arrays, a child that becomes no value is an
error. -/
theorem place_eq_error (child : Child) (suited : graph.Suited record slots)
    (passes : graph.Passes name record route)
    (fits : graph.fits record route)
    (fails : ∀ node, ∃ error, child.convert node = .error error) :
    ∃ error, graph.place child record route slots = .error error := by
  induction passes generalizing slots with
  | @field record index field listed origin =>
      rw [Graph.place, listed]
      dsimp only
      split
      · next item _ =>
          obtain ⟨error, failed⟩ := fails item
          exact ⟨error, by rw [failed]; rfl⟩
      · split
        · exact ⟨_, rfl⟩
        · obtain ⟨error, failed⟩ := fails field.node
          exact ⟨error, by rw [failed]; rfl⟩
  | @group record item index field rest listed isRound inner ih =>
      rw [Graph.fits, Bool.and_eq_true] at fits
      have group := origin_of_groupItem? isRound
      have array := (isArrayField_eq_true_iff listed).1 fits.1
      obtain ⟨items, held⟩ := ((suited.suitsField listed).group group).2 array
      cases current : graph.currentRound item rest.index items with
      | mk front round =>
          obtain ⟨suitedRound, _⟩ := currentRound
            (suited.of_mem_items listed isRound held) current
          obtain ⟨error, failed⟩ := ih suitedRound fits.2
          refine ⟨error, ?_⟩
          simp only [Graph.place, held, current, failed]
          rfl

/-- Where a wildcard is no map, an entry is put nowhere. -/
theorem putEntry_eq_self (suited : graph.Suited record slots)
    (listed : record.fields[index]? = some field)
    (wildcard :
      field.origin = .elementWildcard ∨ field.origin = .attributeWildcard)
    (unfit : graph.isMapField record index = false) (key text : String) :
    slots.putEntry index key text = slots := by
  rw [Slots.putEntry]
  split
  · next entries held =>
      have map := ((suited.suitsField listed).wildcard wildcard).1 ⟨_, held⟩
      rw [(isMapField_eq_true_iff listed).2 map] at unfit
      cases unfit
  · rfl

/-- Where a wildcard is a map, two texts at one key come out as two slots. -/
theorem putEntry_ne (suited : graph.Suited record slots)
    (listed : record.fields[index]? = some field)
    (wildcard :
      field.origin = .elementWildcard ∨ field.origin = .attributeWildcard)
    (map : graph.isMapField record index) (key : String) {text other : String}
    (differs : text ≠ other) :
    slots.putEntry index key text ≠ slots.putEntry index key other := by
  intro same
  obtain ⟨entries, held⟩ := ((suited.suitsField listed).wildcard wildcard).2
    ((isMapField_eq_true_iff listed).1 map)
  have inside := Slots.lt_length_of_get? held
  have equal := congrArg (Slots.get? · index) same
  simp only [Slots.putEntry_of_get? held, Slots.get?_put inside,
    Option.some.injEq, Value.map.injEq] at equal
  have found := congrArg (List.lookup key) equal
  simp only [Association.lookup_insert, if_true, Option.some.injEq] at found
  exact differs found

/-- A child leaves no trace just where a field on its route cannot hold what is
put into it. -/
theorem losesChild_iff (indexed : record.Indexed)
    (suited : graph.Suited record slots)
    (routed : graph.route? record name = some route) :
    graph.LosesChild record route name slots ↔
      graph.fits record route = false := by
  rcases passes_of_route? indexed routed with
    passes | ⟨index, field, rfl, listed, origin⟩
  · refine ⟨?_, suited.losesChild_of_passes passes⟩
    rintro ⟨next, same⟩
    by_contra fits
    rw [Bool.not_eq_false] at fits
    let child : Child := ⟨⟨name, [], []⟩, fun _ => .error (.schema .noRoot)⟩
    obtain ⟨error, failed⟩ :=
      suited.place_eq_error child passes fits fun _ => ⟨_, rfl⟩
    rw [same child rfl] at failed
    cases failed
  · constructor
    · rintro ⟨next, same⟩
      by_contra map
      rw [Bool.not_eq_false] at map
      have empty := same ⟨⟨name, [], []⟩, fun _ => .ok (.array [])⟩ rfl
      have filled :=
        same ⟨⟨name, [], [.text "x"]⟩, fun _ => .ok (.array [])⟩ rfl
      have equal := Except.ok.inj (empty.trans filled.symm)
      exact suited.putEntry_ne listed (.inl origin) map name.name
        (innerMarkup_ne name) equal
    · intro unfit
      refine ⟨slots, fun child _ => ?_⟩
      rw [Graph.place, suited.putEntry_eq_self listed (.inl origin) unfit]

/-- An attribute leaves no trace just where it goes to a wildcard that is no
map. -/
theorem losesAttribute_iff (indexed : record.Indexed)
    (suited : graph.Suited record slots) (zone : Zone) (name : QName) :
    graph.LosesAttribute zone record name slots ↔
      record.attributeField? name = none ∧
        ∃ index, record.attributeWildcard = some index ∧
          graph.isMapField record index = false := by
  rw [LosesAttribute]
  simp only [Graph.placeAttribute]
  cases named : record.attributeField? name with
  | some index =>
      obtain ⟨field, listed, origin⟩ := Record.exists_field_of_findIdx? named
      simp only [listed, reduceCtorEq, false_and, iff_false]
      rintro ⟨next, same⟩
      obtain ⟨first, read, rfl⟩ := Outcome.map_eq_ok.1 (same "")
      obtain ⟨text, differs⟩ :=
        readAttribute_varies graph zone field.node first
      obtain ⟨other, read', equal⟩ := Outcome.map_eq_ok.1 (same text)
      have inside : index < slots.length := by
        obtain ⟨length, _, _, _⟩ := suited
        rw [length]
        exact (List.getElem?_eq_some_iff.1 listed).1
      have held := congrArg (Slots.get? · index) equal
      simp only [Slots.get?_put inside, Option.some.injEq] at held
      exact differs (held ▸ read')
  | none =>
      cases wildcard : record.attributeWildcard with
      | none => simp
      | some index =>
          have place := indexed.attributeWildcard_eq.symm.trans wildcard
          obtain ⟨field, listed, origin⟩ :=
            Record.exists_field_of_findIdx? place
          simp only [true_and, Option.some.injEq, exists_eq_left',
            Except.ok.injEq]
          constructor
          · rintro ⟨next, same⟩
            by_contra map
            rw [Bool.not_eq_false] at map
            have equal := (same "").trans (same "x").symm
            exact suited.putEntry_ne listed (.inr origin) map name.name
              (by decide) equal
          · intro unfit
            exact ⟨slots, fun value =>
              suited.putEntry_eq_self listed (.inr origin) unfit _ _⟩

end Suited

/-! ## Graphs to rely on -/

/-- The fields of a record have distinct names. -/
def DistinctFields (graph : Graph) : Prop :=
  ∀ id r, graph.record? id = some r → (r.fields.map (·.name)).Nodup

/-- Nothing optional is optional or repeated again. -/
def PlainOptionals (graph : Graph) : Prop :=
  ∀ id inner, graph.node? id = some (.optional inner) →
    (∀ other, graph.node? inner ≠ some (.optional other)) ∧
      ∀ item, graph.node? inner ≠ some (.array item)

/-- A record has one field at most for either kind of wildcard and for text. -/
def SingleFields (graph : Graph) : Prop :=
  ∀ id r, graph.record? id = some r →
    ∀ origin ∈ [.elementWildcard, .attributeWildcard, .text],
      (r.fields.map (·.origin)).count origin ≤ 1

/-- Wildcards are maps. -/
def MapWildcards (graph : Graph) : Prop :=
  ∀ id r, graph.record? id = some r → ∀ field ∈ r.fields,
    field.origin = .elementWildcard ∨ field.origin = .attributeWildcard →
      ∃ values, graph.node? field.node = some (.map values)

/-- Groups are arrays of records. -/
def ArrayGroups (graph : Graph) : Prop :=
  ∀ id r, graph.record? id = some r → ∀ field ∈ r.fields,
    field.origin = .group → ∃ node item,
      graph.node? field.node = some (.array node) ∧
        graph.record? node = some item

/-- The fields for text are primitives. -/
def PrimitiveTexts (graph : Graph) : Prop :=
  ∀ id r, graph.record? id = some r → ∀ field ∈ r.fields,
    field.origin = .text → ∃ kind logical,
      graph.node? field.node = some (.primitive kind logical)

/-- A record has a group whose rounds are another record. -/
def HasRounds (graph : Graph) (id item : Nat) : Prop :=
  ∃ r field, graph.record? id = some r ∧ field ∈ r.fields ∧
    field.origin = .group ∧ graph.elementType field.node = item ∧
      (graph.record? item).isSome

/-- No group contains itself, at whatever depth. -/
def AcyclicGroups (graph : Graph) : Prop :=
  ∀ id, ¬ Relation.TransGen graph.HasRounds id id

/-- What the transcoder takes for granted of a graph. -/
structure Reliable (graph : Graph) : Prop where
  distinct : graph.DistinctFields
  optionals : graph.PlainOptionals
  single : graph.SingleFields
  wildcards : graph.MapWildcards
  groups : graph.ArrayGroups
  texts : graph.PrimitiveTexts
  acyclic : graph.AcyclicGroups

theorem fits_of_passes (groups : graph.ArrayGroups) {id : Nat}
    (found : graph.record? id = some record)
    (passes : graph.Passes name record route) : graph.fits record route := by
  induction passes generalizing id with
  | field => rfl
  | group listed isRound inner ih =>
      have group := origin_of_groupItem? isRound
      obtain ⟨node, _, array, _⟩ :=
        groups id _ found _ (List.mem_of_getElem? listed) group
      rw [groupItem?, if_pos group] at isRound
      rw [fits, (isArrayField_eq_true_iff listed).2 ⟨node, array⟩, ih isRound]
      rfl

/-- In a graph to rely on, all routes fit. -/
theorem Reliable.fits_of_route? (reliable : graph.Reliable) {id : Nat}
    (found : graph.record? id = some record) (indexed : record.Indexed)
    (routed : graph.route? record name = some route) :
    graph.fits record route := by
  rcases passes_of_route? indexed routed with
    passes | ⟨index, field, rfl, listed, origin⟩
  · exact fits_of_passes reliable.groups found passes
  · exact (isMapField_eq_true_iff listed).2 (reliable.wildcards id record found
      field (List.mem_of_getElem? listed) (.inl origin))

theorem Reliable.isMapField_of_attributeWildcard (reliable : graph.Reliable)
    {id : Nat} (found : graph.record? id = some record)
    (indexed : record.Indexed) (wildcard : record.attributeWildcard = some index) :
    graph.isMapField record index := by
  rw [indexed.attributeWildcard_eq] at wildcard
  obtain ⟨field, listed, origin⟩ := Record.exists_field_of_findIdx? wildcard
  exact (isMapField_eq_true_iff listed).2 (reliable.wildcards id record found
    field (List.mem_of_getElem? listed) (.inr origin))

theorem writable_of_ofText {text : List Char} (read : ofText text = .ok graph) :
    ∃ root, graph.Writable root := by
  rw [ofText] at read
  split at read
  · cases read
  · split at read
    · cases read
    · exact writable_of_ofTypeText read

/-- Whatever has been put into the slots of a record of a graph that was read, the
next child is lost just where its route does not fit, and the next attribute just
where it goes to a wildcard that is no map.  In a graph to rely on, nothing is. -/
theorem losesContent_iff_of_ofText {text : List Char}
    (read : ofText text = .ok graph) :
    (∃ root, graph.Writable root) ∧
    ∀ id record, graph.record? id = some record →
      ∀ zone children attributes filled slots,
        graph.placeChildren record (graph.emptySlots record) children =
            .ok filled →
        graph.placeAttributes zone record filled attributes = .ok slots →
          (∀ name route, graph.route? record name = some route →
            (graph.LosesChild record route name filled ↔
              graph.fits record route = false)) ∧
          (∀ name, graph.LosesAttribute zone record name slots ↔
            record.attributeField? name = none ∧
              ∃ index, record.attributeWildcard = some index ∧
                graph.isMapField record index = false) ∧
          (graph.Reliable →
            (∀ name route, graph.route? record name = some route →
              ¬ graph.LosesChild record route name filled) ∧
            ∀ name, ¬ graph.LosesAttribute zone record name slots) := by
  obtain ⟨root, writable⟩ := writable_of_ofText read
  refine ⟨⟨root, writable⟩, ?_⟩
  intro id record found zone children attributes filled slots placed finished
  obtain ⟨indexed, _, _⟩ : (Node.record record).Readable :=
    writable.readable id _ (record?_eq_some_iff.1 found)
  have suited := (suited_emptySlots graph record).placeChildren indexed placed
  have suited' := suited.placeAttributes indexed finished
  refine ⟨fun _ _ routed => suited.losesChild_iff indexed routed,
    fun name => suited'.losesAttribute_iff indexed zone name, ?_⟩
  intro reliable
  constructor
  · intro name route routed loses
    have unfit := (suited.losesChild_iff indexed routed).1 loses
    rw [reliable.fits_of_route? found indexed routed] at unfit
    cases unfit
  · intro name loses
    obtain ⟨_, index, wildcard, unfit⟩ :=
      (suited'.losesAttribute_iff indexed zone name).1 loses
    rw [reliable.isMapField_of_attributeWildcard found indexed wildcard] at unfit
    cases unfit

/-- The schema of a record whose wildcard is a text. -/
def unmappedText : String :=
  "\x7b\"type\":\"record\",\"name\":\"r\",\"fields\":[" ++
    "\x7b\"name\":\"others\",\"type\":\"string\"," ++
      "\"source\":\"element-wildcard\"\x7d]\x7d"

/-- The graph of a record whose wildcard is a text. -/
def unmappedGraph : Graph where
  nodes := #[.record ⟨some ⟨"r", none⟩, .type,
      [⟨"others", .elementWildcard, 1⟩], some 0, none, none⟩,
    .primitive .string none]
  root := some 0

theorem ofText_unmappedText :
    ofText unmappedText.toList = .ok unmappedGraph := by
  decide +kernel

/-- A child of any name is lost in a record whose wildcard is a text. -/
theorem losesChild_unmappedGraph :
    ofText unmappedText.toList = .ok unmappedGraph ∧
      ∃ record, unmappedGraph.record? 0 = some record ∧
        unmappedGraph.LosesChild record (.wildcard 0) ⟨"b", none⟩ [none] := by
  obtain ⟨_, loses⟩ := losesContent_iff_of_ofText ofText_unmappedText
  refine ⟨ofText_unmappedText, _, rfl, ?_⟩
  obtain ⟨child, _⟩ := loses 0 _ rfl .utc [] [] [none] [none] rfl rfl
  exact (child ⟨"b", none⟩ (.wildcard 0) rfl).2 rfl

/-- The schema of a record with everything that a graph to rely on has not. -/
def unreliableText : String :=
  "\x7b\"type\":\"record\",\"name\":\"r\",\"fields\":[" ++
    "\x7b\"name\":\"a\",\"type\":[\"null\",[\"null\",\"string\"]]," ++
      "\"source\":\"text\"\x7d," ++
    "\x7b\"name\":\"a\",\"type\":\"r\",\"source\":\"text\"\x7d," ++
    "\x7b\"name\":\"b\",\"type\":\"r\",\"source\":\"group\"\x7d," ++
    "\x7b\"name\":\"c\",\"type\":\"string\"," ++
      "\"source\":\"element-wildcard\"\x7d]\x7d"

/-- The graph of a record with everything that a graph to rely on has not. -/
def unreliableGraph : Graph where
  nodes := #[.record ⟨some ⟨"r", none⟩, .type,
      [⟨"a", .text, 3⟩, ⟨"a", .text, 0⟩, ⟨"b", .group, 0⟩,
        ⟨"c", .elementWildcard, 1⟩], some 3, none, some 0⟩,
    .primitive .string none, .optional 1, .optional 2]
  root := some 0

/-- A text is read as a graph of which nothing holds that the transcoder takes for
granted, and a document loses a child without an error. -/
theorem reads_unreliable_graphs :
    (ofText unreliableText.toList = .ok unreliableGraph ∧
      ¬ unreliableGraph.DistinctFields ∧ ¬ unreliableGraph.PlainOptionals ∧
      ¬ unreliableGraph.SingleFields ∧ ¬ unreliableGraph.MapWildcards ∧
      ¬ unreliableGraph.ArrayGroups ∧ ¬ unreliableGraph.PrimitiveTexts ∧
      ¬ unreliableGraph.AcyclicGroups) ∧
    ofText unmappedText.toList = .ok unmappedGraph ∧
      unmappedGraph.transcodeDocument {}
          ⟨⟨"r", none⟩, [], [.element ⟨"b", none⟩ [] [.text "1"]]⟩ =
        .ok (.record [none]) := by
  refine ⟨⟨by decide +kernel, ?_, ?_, ?_, ?_, ?_, ?_, ?_⟩,
    ofText_unmappedText, rfl⟩
  · intro distinct
    exact absurd (distinct 0 _ rfl) (by decide)
  · intro plain
    exact (plain 3 2 rfl).1 1 rfl
  · intro single
    exact absurd (single 0 _ rfl .text (by simp)) (by decide)
  · intro wildcards
    obtain ⟨values, found⟩ :=
      wildcards 0 _ rfl ⟨"c", .elementWildcard, 1⟩ (by simp) (.inl rfl)
    cases found
  · intro groups
    obtain ⟨node, item, found, _⟩ :=
      groups 0 _ rfl ⟨"b", .group, 0⟩ (by simp) rfl
    cases found
  · intro texts
    obtain ⟨kind, logical, found⟩ :=
      texts 0 _ rfl ⟨"a", .text, 3⟩ (by simp) rfl
    cases found
  · intro acyclic
    exact acyclic 0 (.single
      ⟨_, ⟨"b", .group, 0⟩, rfl, by simp, rfl, rfl, rfl⟩)

end Graph

end XmlRecords
