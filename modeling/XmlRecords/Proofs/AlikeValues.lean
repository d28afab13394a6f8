import XmlRecords.Proofs.CapturedContent
import XmlRecords.Proofs.Reordering
import XmlRecords.Proofs.Supply

/-!
# Values of reordered elements

The attributes of an element may come in any order.  An element that is converted is
converted in any other order too, and to a value that is alike, if no attribute of it
replaces another.  Each part of a value is told by what came to its field, so it is
enough that the attributes are the same ones and that children in the same places
become alike.
-/

namespace XmlRecords

namespace Graph

/-- No attribute of an element that is matched replaces another one: their names are
distinct, and so are the local names of those that come to the wildcard. -/
def Unmixed (graph : Graph) (id : Nat) (element : Element) : Prop :=
  ∀ node inner record, graph.Matched id element node inner →
    graph.record? node = some record →
      (inner.attributes.map (·.name)).Nodup ∧
        ((record.otherAttributes inner.attributes).map (·.name.name)).Nodup

/-- An element that is matched, with the one in the same place of another element. -/
inductive Counterparts (graph : Graph) (id : Nat) (element twin : Element) :
    Nat → Element → Element → Prop where
  | whole : Counterparts graph id element twin id element twin
  | child {node : Nat} {outer above inner other : Element} {record : Record}
      {route : Route} {field : Field}
      (parents : Counterparts graph id element twin node outer above)
      (found : graph.record? node = some record)
      (both : (inner, other) ∈ outer.children.zip above.children)
      (routed : graph.route? record inner.name = some route)
      (leads : graph.Leads record route field) :
      Counterparts graph id element twin (graph.elementType field.node) inner other

/-- A child that a wildcard captures, with the one in the same place of another
element. -/
inductive CapturedPair (graph : Graph) (id : Nat) (element twin : Element) :
    Element → Element → Prop where
  | child {node : Nat} {outer above inner other : Element} {record : Record}
      {index : Nat} (parents : Counterparts graph id element twin node outer above)
      (found : graph.record? node = some record)
      (both : (inner, other) ∈ outer.children.zip above.children)
      (routed : graph.route? record inner.name = some (.wildcard index)) :
      CapturedPair graph id element twin inner other

/-- What becomes of one child of a record is alike what becomes of another one. -/
structure AlikeChild (graph : Graph) (zone : Zone) (texts : String → String → Prop)
    (record : Record) (child twin : Element) : Prop where
  name : twin.name = child.name
  markup : ∀ index, graph.route? record child.name = some (.wildcard index) →
    texts child.innerMarkup twin.innerMarkup
  converts : ∀ route field value, graph.route? record child.name = some route →
    graph.Leads record route field →
      graph.convert zone (graph.elementType field.node) child = .ok value →
        ∃ other, graph.convert zone (graph.elementType field.node) twin = .ok other ∧
          value.Alike texts other

variable {graph : Graph} {allowed : QName → Prop} {root id : Nat}
  {record item : Record} {zone : Zone} {texts : String → String → Prop}
  {children twins : List Element} {child twin element : Element}
  {slots others : Slots} {held held' : Option Value} {field : Field} {index : Nat}

/-! ## Names alone tell where children go -/

theorem forall₂_sentTo {related : Element → Element → Prop} (record : Record)
    (index : Nat) (names : ∀ child twin, related child twin → twin.name = child.name)
    (together : List.Forall₂ related children twins) :
    List.Forall₂ related (graph.sentTo record index children)
      (graph.sentTo record index twins) := by
  refine List.rel_filter (fun child twin alike => ?_) together
  simp only [names child twin alike]

theorem names_sentTo (record : Record) (index : Nat) (children : List Element) :
    (graph.sentTo record index children).map (·.name) =
      (children.map (·.name)).filter fun name =>
        (graph.route? record name).map Route.index = some index := by
  rw [List.filter_map]
  rfl

theorem fitsRound_of_names (names : twins.map (·.name) = children.map (·.name))
    (fits : graph.FitsRound item children) : graph.FitsRound item twins := by
  have named : ∀ twin ∈ twins, ∃ child ∈ children, child.name = twin.name := by
    intro twin member
    exact List.mem_map.1 (names ▸ List.mem_map_of_mem member)
  constructor
  · intro index single
    have same : (graph.sentTo item index twins).map (·.name) =
        (graph.sentTo item index children).map (·.name) := by
      rw [names_sentTo, names, ← names_sentTo]
    have length := congrArg List.length same
    rw [List.length_map, List.length_map] at length
    exact length ▸ fits.single index single
  · intro choice first member second member'
    obtain ⟨child, listed, same⟩ := named first member
    obtain ⟨child', listed', same'⟩ := named second member'
    rw [← same, ← same']
    exact fits.together choice child listed child' listed'

theorem AlikeChild.names
    (together : List.Forall₂ (graph.AlikeChild zone texts record) children twins) :
    twins.map (·.name) = children.map (·.name) := by
  induction together with
  | nil => rfl
  | cons first _ ih => rw [List.map_cons, List.map_cons, first.name, ih]

/-! ## What is alike in a field -/

theorem alike_of_receives_element {name : QName} (origin : field.origin = .element name)
    (one : graph.Receives zone field children held)
    (two : graph.Receives zone field twins held')
    (together : List.Forall₂ (fun child twin => ∀ value,
      graph.convert zone (graph.elementType field.node) child = .ok value →
        ∃ other, graph.convert zone (graph.elementType field.node) twin = .ok other ∧
          value.Alike texts other) children twins) :
    Option.Rel (Value.Alike texts) held held' := by
  by_cases single : ∀ item, graph.node? field.node ≠ some (.array item)
  · rcases one.cases_single origin single with
      ⟨rfl, rfl⟩ | ⟨child, value, rfl, rfl, converted⟩
    · cases together
      rcases two.cases_single origin single with ⟨_, rfl⟩ | ⟨_, _, impossible, _⟩
      · exact .none
      · cases impossible
    · rcases two.cases_single origin single with
        ⟨rfl, _⟩ | ⟨twin, other, rfl, rfl, converted'⟩
      · cases together
      · obtain ⟨last, converted'', alike⟩ :=
          (List.forall₂_cons.1 together).1 value converted
        cases converted'.symm.trans converted''
        exact .some alike
  · push Not at single
    obtain ⟨node, array⟩ := single
    obtain ⟨values, rfl, each⟩ := one.exists_items origin array
    obtain ⟨values', rfl, each'⟩ := two.exists_items origin array
    refine .some (.array ?_)
    clear one two
    induction together generalizing values values' with
    | nil =>
        cases each
        cases each'
        exact .nil
    | cons first _ ih =>
        cases each with
        | cons converted each =>
            cases each' with
            | cons converted' each' =>
                obtain ⟨last, converted'', alike⟩ := first _ converted
                cases converted'.symm.trans converted''
                exact .cons alike (ih _ each _ each')

theorem alike_of_receives_wildcard (origin : field.origin = .elementWildcard)
    (one : graph.Receives zone field children held)
    (two : graph.Receives zone field twins held')
    (together : List.Forall₂ (fun child twin => twin.name = child.name ∧
      texts child.innerMarkup twin.innerMarkup) children twins) :
    Option.Rel (Value.Alike texts) held held' := by
  obtain ⟨entries, rfl, captures⟩ := one.exists_entries origin
  obtain ⟨entries', rfl, captures'⟩ := two.exists_entries origin
  refine .some (.markup (captures.forall₂ captures' ?_))
  rw [List.forall₂_map_left_iff, List.forall₂_map_right_iff]
  exact together.imp fun child twin both => ⟨congrArg QName.name both.1.symm, both.2⟩

theorem alike_of_receives_rounds (isGroup : graph.groupItem? field = some item)
    (one : graph.Receives zone field children held)
    (two : graph.Receives zone field twins held')
    (together : List.Forall₂ (graph.AlikeChild zone texts item) children twins)
    (rounds : ∀ share others : List Element, ∀ slots next : Slots,
      graph.Distributes zone item share slots →
        graph.Distributes zone item others next →
          List.Forall₂ (graph.AlikeChild zone texts item) share others →
            List.Forall₂ (Option.Rel (Value.Alike texts)) slots next) :
    Option.Rel (Value.Alike texts) held held' := by
  obtain ⟨shares, rfl, divides, each, _⟩ := one.exists_rounds isGroup
  obtain ⟨shares', rfl, divides', each', _⟩ := two.exists_rounds isGroup
  have alike := divides.forall₂_of_forall₂ divides' (inherits_fitsRound graph item)
    (fun run part alike =>
      ⟨fitsRound_of_names (AlikeChild.names alike),
        fitsRound_of_names (AlikeChild.names alike).symm⟩) together
  rw [List.forall₂_map_left_iff, List.forall₂_map_right_iff,
    List.forall₂_iff_zip] at alike
  obtain ⟨length, alike⟩ := alike
  refine .some (.array ?_)
  rw [List.forall₂_map_left_iff, List.forall₂_map_right_iff]
  refine List.forall₂_iff_zip.2 ⟨length, fun {round twin} both => ?_⟩
  obtain ⟨member, member'⟩ := List.of_mem_zip both
  exact .record (rounds _ _ _ _ (each round member) (each' twin member') (alike both))

namespace Lowered

/-! ## The fields that children are sent to -/

theorem exists_leads_of_mem_sentTo (lowered : graph.Lowered allowed root)
    (found : graph.record? id = some record)
    (listed : record.fields[index]? = some field) {name : QName}
    (origin : field.origin = .element name)
    (sent : child ∈ graph.sentTo record index children) :
    ∃ route, graph.route? record child.name = some route ∧
      graph.Leads record route field := by
  obtain ⟨_, route, routed, rfl⟩ := by
    simpa only [mem_sentTo, Option.map_eq_some_iff] using sent
  refine ⟨route, routed, ?_⟩
  rcases lowered.leads_of_route? found routed with
    ⟨_, last, leads, _⟩ | ⟨place, rfl, wildcard⟩
  · cases leads with
    | field listed' origin' closed =>
        cases listed.symm.trans listed'
        exact .field listed origin' closed
    | group listed' _ rounds _ =>
        cases listed.symm.trans listed'
        cases origin.symm.trans (origin_of_groupItem? rounds)
  · obtain ⟨other, listed', origin', _⟩ :=
      lowered.isTextMap_of_elementWildcard found wildcard
    cases listed.symm.trans listed'
    cases origin.symm.trans origin'

theorem routed_of_mem_sentTo (lowered : graph.Lowered allowed root)
    (found : graph.record? id = some record)
    (listed : record.fields[index]? = some field)
    (origin : field.origin = .elementWildcard)
    (sent : child ∈ graph.sentTo record index children) :
    graph.route? record child.name = some (.wildcard index) := by
  obtain ⟨_, route, routed, rfl⟩ := by
    simpa only [mem_sentTo, Option.map_eq_some_iff] using sent
  rcases lowered.leads_of_route? found routed with
    ⟨_, last, leads, _⟩ | ⟨place, rfl, _⟩
  · exact absurd rfl (leads.index_ne_of_elementWildcard listed origin)
  · exact routed

/-- What is alike as a child of a record is so in the rounds that it goes to. -/
theorem alikeChild_item (lowered : graph.Lowered allowed root)
    (found : graph.record? id = some record)
    (listed : record.fields[index]? = some field)
    (isGroup : graph.groupItem? field = some item)
    (sent : child ∈ graph.sentTo record index children)
    (alike : graph.AlikeChild zone texts record child twin) :
    graph.AlikeChild zone texts item child twin := by
  obtain ⟨node, _, array, isItem, _⟩ := lowered.round_of_groupItem? found listed isGroup
  obtain ⟨rest, routed, goes⟩ :=
    lowered.exists_rest_of_mem_sentTo found listed isGroup sent
  have onward := (lowered.route?_eq_iff isItem).2 (.named goes)
  refine ⟨alike.name, ?_, ?_⟩
  · intro place captured
    cases onward.symm.trans captured
    cases goes
  · intro route last value led leads converted
    cases onward.symm.trans led
    exact alike.converts _ last value routed (.group listed array isGroup leads) converted

/-- Children that are alike one by one make slots that are alike, by induction on the
groups in groups. -/
theorem alike_of_distributes (lowered : graph.Lowered allowed root)
    (groups : graph.GroupsOfChildren) (found : graph.record? id = some record)
    (one : graph.Distributes zone record children slots)
    (two : graph.Distributes zone record twins others)
    (together : List.Forall₂ (graph.AlikeChild zone texts record) children twins)
    (listed : record.fields[index]? = some field) (forChildren : IsForChildren field) :
    Option.Rel (Value.Alike texts) (slots.get? index) (others.get? index) := by
  induction behind : graph.nodes.size - id using Nat.strong_induction_on
    generalizing id record children twins slots others index field with
  | _ n ih =>
      have first := one.receives listed forChildren
      have second := two.receives listed forChildren
      have sent : List.Forall₂ (fun child twin =>
          child ∈ graph.sentTo record index children ∧
            graph.AlikeChild zone texts record child twin)
          (graph.sentTo record index children) (graph.sentTo record index twins) :=
        (List.forall₂_and_left _ _).2 ⟨fun _ member => member,
          forall₂_sentTo record index (fun _ _ alike => alike.name) together⟩
      rcases forChildren with ⟨name, origin⟩ | group | origin
      · refine alike_of_receives_element origin first second (sent.imp ?_)
        rintro child twin ⟨member, alike⟩ value converted
        obtain ⟨route, routed, leads⟩ :=
          lowered.exists_leads_of_mem_sentTo found listed origin member
        exact alike.converts route field value routed leads converted
      · obtain ⟨node, item, isGroup, _, _, isItem, later⟩ :=
          lowered.exists_round found (List.mem_of_getElem? listed) group
        have inside := lt_size_of_node? (record?_eq_some_iff.1 isItem)
        refine alike_of_receives_rounds isGroup first second (sent.imp ?_) ?_
        · rintro child twin ⟨member, alike⟩
          exact lowered.alikeChild_item found listed isGroup member alike
        · intro share others slots next one two together
          have length := one.length_eq.trans two.length_eq.symm
          obtain ⟨_, compositor, _, isItem', source⟩ :=
            lowered.round_of_groupItem? found listed isGroup
          refine Slots.alike_of_get? length fun place within => ?_
          have within : place < item.fields.length := one.length_eq ▸ within
          have listed' := List.getElem?_eq_getElem within
          refine ih _ (by omega) isItem one two together listed' ?_ rfl
          exact groups _ item compositor isItem' source _ (List.getElem_mem within)
      · refine alike_of_receives_wildcard origin first second (sent.imp ?_)
        rintro child twin ⟨member, alike⟩
        exact ⟨alike.name, alike.markup index
          (lowered.routed_of_mem_sentTo found listed origin member)⟩

end Lowered

/-! ## What is alike in a record -/

theorem convert_eq_of_text_eq (primitive : graph.IsPrimitive id) (zone : Zone)
    (same : twin.text = element.text) :
    graph.convert zone id twin = graph.convert zone id element := by
  obtain ⟨kind, logical, found⟩ := primitive
  rw [convert_primitive found, convert_primitive found, same]

/-- What qualifies for a record does so in another order too. -/
theorem Qualifies.reordered (qualifies : graph.Qualifies zone record element)
    (wellFormed : graph.WellFormedRecord record) (reordered : element.Reordered twin)
    (together : List.Forall₂ (graph.AlikeChild zone texts record) element.children
      twin.children) : graph.Qualifies zone record twin := by
  have listed : ∀ a ∈ twin.attributes, a ∈ element.attributes :=
    fun a => reordered.perm.mem_iff.2
  constructor
  · intro other member
    obtain ⟨child, listed, alike⟩ := exists_mem_of_forall₂ together other member
    rw [alike.name]
    exact qualifies.matched child listed
  · intro index field name listed origin single
    rw [← (forall₂_sentTo record index (fun _ _ alike => alike.name)
      together).length_eq]
    exact qualifies.single index field name listed origin single
  · intro other member route field routed leads
    obtain ⟨child, listed, alike⟩ := exists_mem_of_forall₂ together other member
    rw [alike.name] at routed
    obtain ⟨value, converted⟩ := qualifies.converts child listed route field routed leads
    obtain ⟨last, converted', _⟩ := alike.converts route field value routed leads converted
    exact ⟨last, converted'⟩
  · exact fun a member => qualifies.named a (listed a member)
  · exact fun a member => qualifies.unnamed a (listed a member)
  · intro index field isText listed
    obtain ⟨field', listed', origin⟩ := (wellFormed.text index).1 isText
    cases listed.symm.trans listed'
    have primitive := wellFormed.texts field (List.mem_of_getElem? listed) origin
    rw [convert_eq_of_text_eq primitive zone reordered.text_eq]
    exact qualifies.text index field isText listed

namespace Holdings

theorem alike_attribute (one : graph.Holdings zone record element slots)
    (two : graph.Holdings zone record twin others) (reordered : element.Reordered twin)
    (listed : record.fields[index]? = some field) {name : QName}
    (origin : field.origin = .attribute name) :
    Option.Rel (Value.Alike texts) (slots.get? index) (others.get? index) := by
  have same : ∀ a, a ∈ element.attributes ↔ a ∈ twin.attributes :=
    fun a => reordered.perm.mem_iff
  by_cases came : ∃ a ∈ element.attributes, a.isMeta = false ∧
      record.attributeField? a.name = some index
  · obtain ⟨a, member, isData, named⟩ := came
    obtain ⟨value, read, held⟩ := one.named a member isData index field named listed
    obtain ⟨value', read', held'⟩ :=
      two.named a ((same a).1 member) isData index field named listed
    cases read.symm.trans read'
    rw [held, held']
    exact .some (.same value)
  · push Not at came
    rw [one.absent index field name listed origin came,
      two.absent index field name listed origin
        fun a member => came a ((same a).2 member)]
    exact .none

/-- With distinct local names, all attributes without a field are kept either way. -/
theorem alike_attributeWildcard (one : graph.Holdings zone record element slots)
    (two : graph.Holdings zone record twin others) (reordered : element.Reordered twin)
    (distinct : ((record.otherAttributes element.attributes).map (·.name.name)).Nodup)
    (wildcard : record.attributeWildcard = some index) :
    Option.Rel (Value.Alike texts) (slots.get? index) (others.get? index) := by
  obtain ⟨entries, held, captures⟩ := one.unnamed index wildcard
  obtain ⟨entries', held', captures'⟩ := two.unnamed index wildcard
  have perm : (record.otherAttributes element.attributes).Perm
      (record.otherAttributes twin.attributes) := reordered.perm.filter _
  have keys := (perm.map (·.name.name)).nodup_iff.1 distinct
  rw [held, held', captures.eq_iff_nodup.2 (by rwa [List.map_map]),
    captures'.eq_iff_nodup.2 (by rwa [List.map_map])]
  exact .some (.entries (perm.map _))

theorem alike_text (one : graph.Holdings zone record element slots)
    (two : graph.Holdings zone record twin others) (reordered : element.Reordered twin)
    (isText : record.text = some index) (listed : record.fields[index]? = some field)
    (primitive : graph.IsPrimitive field.node) :
    Option.Rel (Value.Alike texts) (slots.get? index) (others.get? index) := by
  obtain ⟨value, converted, held⟩ := one.text index field isText listed
  obtain ⟨value', converted', held'⟩ := two.text index field isText listed
  rw [convert_eq_of_text_eq primitive zone reordered.text_eq] at converted'
  cases converted.symm.trans converted'
  rw [held, held']
  exact .some (.same value)

end Holdings

/-- Records of elements that differ in the order of attributes are alike, each slot by
what it is for. -/
theorem Lowered.alike_of_holdings (lowered : graph.Lowered allowed root)
    (groups : graph.GroupsOfChildren) (wellFormed : graph.WellFormedRecord record)
    (found : graph.record? id = some record) (reordered : element.Reordered twin)
    (distinct : ((record.otherAttributes element.attributes).map (·.name.name)).Nodup)
    (together : List.Forall₂ (graph.AlikeChild zone texts record) element.children
      twin.children)
    (one : graph.Holdings zone record element slots)
    (two : graph.Holdings zone record twin others) :
    List.Forall₂ (Option.Rel (Value.Alike texts)) slots others := by
  have length := one.children.length_eq
  refine Slots.alike_of_get? (length.trans two.children.length_eq.symm)
    fun index inside => ?_
  have listed := List.getElem?_eq_getElem (length ▸ inside)
  generalize record.fields[index] = field at listed
  have forChildren : IsForChildren field →
      Option.Rel (Value.Alike texts) (slots.get? index) (others.get? index) :=
    lowered.alike_of_distributes groups found one.children two.children together listed
  cases origin : field.origin with
  | element name => exact forChildren (.inl ⟨name, origin⟩)
  | group => exact forChildren (.inr (.inl origin))
  | elementWildcard => exact forChildren (.inr (.inr origin))
  | «attribute» name => exact one.alike_attribute two reordered listed origin
  | attributeWildcard =>
      exact one.alike_attributeWildcard two reordered distinct
        ((wellFormed.attributeWildcard index).2 ⟨field, listed, origin⟩)
  | text =>
      exact one.alike_text two reordered
        ((wellFormed.text index).2 ⟨field, listed, origin⟩) listed
        (wellFormed.texts field (List.mem_of_getElem? listed) origin)

/-! ## Elements in the same places -/

/-- The twin is the element in another order.  What is matched is not mixed up by
this, and what is captured has texts that are related. -/
structure Rearranged (graph : Graph) (texts : String → String → Prop) (id : Nat)
    (element twin : Element) : Prop where
  reordered : element.Reordered twin
  unmixed : graph.Unmixed id element
  markup : ∀ child other, graph.CapturedPair id element twin child other →
    texts child.innerMarkup other.innerMarkup

namespace Counterparts

variable {node : Nat} {inner other : Element}

theorem matched (pair : graph.Counterparts id element twin node inner other) :
    graph.Matched id element node inner := by
  induction pair with
  | whole => exact .whole
  | child _ found both routed leads ih =>
      exact .child ih found (List.of_mem_zip both).1 routed leads

theorem reordered (pair : graph.Counterparts id element twin node inner other)
    (whole : element.Reordered twin) : inner.Reordered other := by
  induction pair with
  | whole => exact whole
  | child _ _ both _ _ ih => exact (List.forall₂_iff_zip.1 ih.children).2 both

theorem primitive_or_record (lowered : graph.Lowered allowed root)
    (pair : graph.Counterparts id element twin node inner other)
    (kind : graph.IsPrimitive id ∨ ∃ r, graph.record? id = some r) :
    graph.IsPrimitive node ∨ ∃ r, graph.record? node = some r := by
  cases pair with
  | whole => exact kind
  | child _ found _ routed leads =>
      exact (lowered.isBase_of_route? found routed leads).primitive_or_record

end Counterparts

/-- Elements in the same places become alike, by induction on their levels. -/
theorem Lowered.exists_alike_of_counterparts (lowered : graph.Lowered allowed root)
    (groups : graph.GroupsOfChildren)
    (wellFormed : ∀ id record, graph.record? id = some record →
      graph.WellFormedRecord record)
    (rearranged : graph.Rearranged texts id element twin)
    (kind : graph.IsPrimitive id ∨ ∃ r, graph.record? id = some r) {node : Nat}
    {inner other : Element} {value : Value}
    (pair : graph.Counterparts id element twin node inner other)
    (converted : graph.convert zone node inner = .ok value) :
    ∃ last, graph.convert zone node other = .ok last ∧ value.Alike texts last := by
  induction levels : inner.depth using Nat.strong_induction_on
    generalizing node inner other value with
  | _ n ih =>
      have reordered := pair.reordered rearranged.reordered
      rcases pair.primitive_or_record lowered kind with primitive | ⟨record, found⟩
      · rw [convert_eq_of_text_eq primitive zone reordered.text_eq]
        exact ⟨value, converted, .same value⟩
      · have alike : List.Forall₂ (graph.AlikeChild zone texts record)
            inner.children other.children := by
          obtain ⟨length, zipped⟩ := List.forall₂_iff_zip.1 reordered.children
          refine List.forall₂_iff_zip.2 ⟨length, fun {child next} both => ?_⟩
          refine ⟨(zipped both).name_eq, ?_, ?_⟩
          · intro index captured
            exact rearranged.markup child next (.child pair found both captured)
          · intro route field value routed leads converted
            have fewer := depth_lt_of_mem_children (List.of_mem_zip both).1
            exact ih child.depth (levels ▸ fewer)
              (.child pair found both routed leads) converted rfl
        obtain ⟨names, locals⟩ := rearranged.unmixed node inner record pair.matched found
        have qualifies := (lowered.qualifies_of_convert found converted).reordered
          (wellFormed node record found) reordered alike
        obtain ⟨last, converted'⟩ := lowered.exists_convert_of_qualifies found qualifies
        have names' := (reordered.perm.map (·.name)).nodup_iff.1 names
        obtain ⟨slots, rfl, holds⟩ := lowered.holdings_of_convert found names converted
        obtain ⟨slots', rfl, holds'⟩ :=
          lowered.holdings_of_convert found names' converted'
        exact ⟨_, converted', .record (lowered.alike_of_holdings groups
          (wellFormed node record found) found reordered locals alike holds holds')⟩

end Graph

end XmlRecords
