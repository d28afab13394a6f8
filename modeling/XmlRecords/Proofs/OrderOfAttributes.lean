import XmlRecords.Proofs.AlikeValues

/-!
# The order of attributes

Of what comes without a field of its own, a record keeps what came last under each
local name.  Where the local names are distinct, nothing is lost by this, and the order
in which the attributes of an element come matters only to the order of entries.  It is
of account again where markup is kept as text.
-/

namespace XmlRecords

namespace Graph

variable {graph : Graph} {allowed : QName → Prop} {root id : Nat} {record : Record}
  {texts : String → String → Prop} {settings : Settings} {element twin : Element}
  {value : Value}

theorem Rearranged.checkDepth_eq (rearranged : graph.Rearranged texts id element twin)
    (settings : Settings) : checkDepth settings twin = checkDepth settings element := by
  rw [checkDepth, checkDepth, rearranged.reordered.depth_eq]

/-- A choice of a document element with its one field filled. -/
theorem alike_put {other : Value} {unset : Slots} (alike : value.Alike texts other)
    (index : Nat) :
    Value.Alike texts (.record (unset.put index value)) (.record (unset.put index other)) := by
  have length : (unset.put index value).length = (unset.put index other).length := by
    rw [Slots.length_put, Slots.length_put]
  refine .record (Slots.alike_of_get? length fun place inside => ?_)
  rw [Slots.length_put] at inside
  by_cases here : place = index
  · subst here
    rw [Slots.get?_put inside, Slots.get?_put inside]
    exact .some alike
  · rw [Slots.get?_put_of_ne here, Slots.get?_put_of_ne here]
    exact Slots.alike_refl _

namespace Lowered

variable (lowered : graph.Lowered allowed root) (groups : graph.GroupsOfChildren)
  (wellFormed : ∀ id record, graph.record? id = some record →
    graph.WellFormedRecord record)

include lowered groups wellFormed

theorem exists_alike_of_transcode
    (kind : graph.IsPrimitive id ∨ ∃ r, graph.record? id = some r)
    (transcoded : graph.transcode settings id element = .ok value)
    (rearranged : graph.Rearranged texts id element twin) :
    ∃ other, graph.transcode settings id twin = .ok other ∧ value.Alike texts other := by
  obtain ⟨_, checked, converted⟩ := Outcome.bind_eq_ok.1 transcoded
  obtain ⟨other, converted', alike⟩ := lowered.exists_alike_of_counterparts groups
    wellFormed rearranged kind .whole converted
  rw [← rearranged.checkDepth_eq] at checked
  exact ⟨other, Outcome.bind_eq_ok.2 ⟨_, checked, converted'⟩, alike⟩

theorem exists_alike_of_transcodeRoot
    (transcoded : graph.transcodeRoot settings root element = .ok value) :
    ∃ start, graph.documentNode? element.name = some start ∧
      ∀ twin texts, graph.Rearranged texts start element twin →
        ∃ other, graph.transcodeRoot settings root twin = .ok other ∧
          value.Alike texts other := by
  rcases lowered.transcodeRoot_cases settings element.name with
    unknown | ⟨start, wrap, starts, base, same, standing⟩
  · rw [unknown element rfl] at transcoded
    obtain ⟨_, _, impossible⟩ := Outcome.bind_eq_ok.1 transcoded
    cases impossible
  · refine ⟨start, starts, fun twin texts rearranged => ?_⟩
    rw [same element rfl] at transcoded
    rw [same twin rearranged.reordered.name_eq, rearranged.checkDepth_eq]
    obtain ⟨_, checked, transcoded⟩ := Outcome.bind_eq_ok.1 transcoded
    obtain ⟨inner, converted, rfl⟩ := Outcome.map_eq_ok.1 transcoded
    obtain ⟨last, converted', alike⟩ := lowered.exists_alike_of_counterparts groups
      wellFormed rearranged base.primitive_or_record .whole converted
    refine ⟨wrap last, Outcome.bind_eq_ok.2
      ⟨_, checked, Outcome.map_eq_ok.2 ⟨last, converted', rfl⟩⟩, ?_⟩
    rcases standing with ⟨_, rfl⟩ | ⟨_, index, _, _, _, _, rfl⟩
    · exact alike
    · exact alike_put alike index

/-- A child that is split off is captured, or becomes alike in another order. -/
theorem captured_or_alike_of_transcodeChild
    (found : graph.record? id = some record) {node : Nat}
    (transcoded : graph.transcodeChild settings record element = .ok (node, value)) :
    ((∃ index, graph.route? record element.name = some (.wildcard index)) ∧
      value = .string element.innerMarkup) ∨
    ∀ twin texts, graph.Rearranged texts node element twin →
      ∃ other, graph.transcodeChild settings record twin = .ok (node, other) ∧
        value.Alike texts other := by
  obtain ⟨_, checked, transcoded⟩ := Outcome.bind_eq_ok.1 transcoded
  split at transcoded
  · cases transcoded
  · next route routed =>
      rcases lowered.leads_of_route? found routed with
        ⟨_, field, leads, _⟩ | ⟨index, rfl, wildcard⟩
      · rw [convertAlong_eq settings.zone element leads] at transcoded
        obtain ⟨inner, converted, same⟩ := Outcome.map_eq_ok.1 transcoded
        cases same
        refine .inr fun twin texts rearranged => ?_
        obtain ⟨last, converted', alike⟩ := lowered.exists_alike_of_counterparts groups
          wellFormed rearranged
          (lowered.isBase_of_route? found routed leads).primitive_or_record .whole
          converted
        refine ⟨last, ?_, alike⟩
        rw [transcodeChild, rearranged.checkDepth_eq, rearranged.reordered.name_eq, routed]
        refine Outcome.bind_eq_ok.2 ⟨_, checked, ?_⟩
        dsimp only
        rw [convertAlong_eq settings.zone twin leads]
        exact Outcome.map_eq_ok.2 ⟨last, converted', rfl⟩
      · obtain ⟨field, listed, _, values, map, _⟩ :=
          lowered.isTextMap_of_elementWildcard found wildcard
        rw [convertAlong, listed, Option.bind_some, map] at transcoded
        cases transcoded
        exact .inl ⟨⟨index, routed⟩, rfl⟩

end Lowered

/-- Wildcards keep what came last under each local name, one entry for each name, and so
all that came to them just when the local names are distinct.  Unless an attribute
replaces another, the attributes of all elements may come in any order: the value
differs in the order of entries, and in captured markup as far as that is written
otherwise.  This is so for elements and documents, and for each child that is split
off, of which a captured one is written by itself. -/
theorem keepsOthers_of_ofComponents {components : Components}
    {wanted : Option String} {graph : Graph}
    (built : ofComponents components wanted = .ok graph) (settings : Settings) :
    (∀ id record element value, graph.record? id = some record →
      graph.transcode settings id element = .ok value →
        (∃ slots, value = .record slots ∧ graph.KeepsOthers record element slots) ∧
        ∀ twin texts, graph.Rearranged texts id element twin →
          ∃ other, graph.transcode settings id twin = .ok other ∧
            value.Alike texts other) ∧
    (∀ element value, graph.transcodeDocument settings element = .ok value →
      ∃ start, graph.documentNode? element.name = some start ∧
        ∀ twin texts, graph.Rearranged texts start element twin →
          ∃ other, graph.transcodeDocument settings twin = .ok other ∧
            value.Alike texts other) ∧
    ∀ id record child node value, graph.record? id = some record →
      graph.transcodeChild settings record child = .ok (node, value) →
        ((∃ index, graph.route? record child.name = some (.wildcard index)) ∧
          value = .string child.innerMarkup) ∨
        ∀ twin texts, graph.Rearranged texts node child twin →
          ∃ other, graph.transcodeChild settings record twin = .ok (node, other) ∧
            value.Alike texts other := by
  obtain ⟨_, roles, root, _, lowered, depicts⟩ :=
    exists_lowered_depicts_of_ofComponents (Lowering.identifies_any components) built
  have groups := depicts.groupsOfChildren
  have wellFormed : ∀ id record, graph.record? id = some record →
      graph.WellFormedRecord record :=
    fun _ _ found => depicts.wellFormedRecord lowered found
  refine ⟨?_, ?_, ?_⟩
  · intro id record element value found transcoded
    obtain ⟨_, _, converted⟩ := Outcome.bind_eq_ok.1 transcoded
    refine ⟨lowered.keepsOthers_of_convert found converted, fun twin texts => ?_⟩
    exact lowered.exists_alike_of_transcode groups wellFormed (.inr ⟨record, found⟩)
      transcoded
  · intro element value transcoded
    simp only [transcodeDocument, rootNode, lowered.rooted] at transcoded ⊢
    exact lowered.exists_alike_of_transcodeRoot groups wellFormed transcoded
  · intro id record child node value found transcoded
    exact lowered.captured_or_alike_of_transcodeChild groups wellFormed found transcoded

end Graph

/-- A report with attributes and with an author, whose name has attributes. -/
def authoredReport (attributes inner : List Attribute) : Element :=
  ⟨⟨"report", none⟩, attributes,
    [.element ⟨"author", none⟩ [] [.element ⟨"name", none⟩ inner []]]⟩

/-- Attributes of a report, two of which have no field. -/
def reportAttributes : List Attribute :=
  [⟨⟨"id", none⟩, "7"⟩, ⟨⟨"lang", none⟩, "en"⟩, ⟨⟨"dir", none⟩, "ltr"⟩]

/-- Attributes of a report, two of which have no field and the same local name. -/
def doubledAttributes : List Attribute :=
  [⟨⟨"id", none⟩, "7"⟩, ⟨⟨"lang", some "urn:a"⟩, "en"⟩, ⟨⟨"lang", some "urn:b"⟩, "de"⟩]

/-- Attributes of a name. -/
def nameAttributes : List Attribute :=
  [⟨⟨"first", none⟩, "Ann"⟩, ⟨⟨"last", none⟩, "Lee"⟩]

theorem reordered_authoredReport {attributes others inner more : List Attribute}
    (outside : attributes.Perm others) (within : inner.Perm more) :
    (authoredReport attributes inner).Reordered (authoredReport others more) :=
  .element outside (.cons (.element (.refl _) (.cons (.element within .nil) .nil)) .nil)

/-- The author of such a report has no field. -/
theorem not_leads_authoredReport {attributes inner : List Attribute} {record : Record}
    {child : Element} {route : Route} {field : Field}
    (found : reportGraph.record? 0 = some record)
    (member : child ∈ (authoredReport attributes inner).children)
    (routed : reportGraph.route? record child.name = some route) :
    ¬ reportGraph.Leads record route field := by
  intro leads
  cases found
  cases List.mem_singleton.1 member
  cases routed
  cases leads

/-- So nothing of it is matched but itself. -/
theorem eq_of_matched_authoredReport {attributes inner : List Attribute} {node : Nat}
    {element : Element}
    (matched : reportGraph.Matched 0 (authoredReport attributes inner) node element) :
    node = 0 ∧ element = authoredReport attributes inner := by
  induction matched with
  | whole => exact ⟨rfl, rfl⟩
  | child _ found member routed leads ih =>
      obtain ⟨rfl, rfl⟩ := ih
      exact absurd leads (not_leads_authoredReport found member routed)

theorem eq_of_counterparts_authoredReport {attributes others inner more : List Attribute}
    {node : Nat} {element twin : Element}
    (pair : reportGraph.Counterparts 0 (authoredReport attributes inner)
      (authoredReport others more) node element twin) :
    element = authoredReport attributes inner ∧ twin = authoredReport others more := by
  cases pair with
  | whole => exact ⟨rfl, rfl⟩
  | child parents found both routed leads =>
      obtain ⟨rfl, rfl⟩ := eq_of_matched_authoredReport parents.matched
      exact absurd leads
        (not_leads_authoredReport found (List.of_mem_zip both).1 routed)

/-- The texts of two names. -/
def NamesSwapped (text other : String) : Prop :=
  text = "<name first=\"Ann\" last=\"Lee\"/>" ∧
    other = "<name last=\"Lee\" first=\"Ann\"/>"

theorem rearranged_authoredReport :
    reportGraph.Rearranged NamesSwapped 0
      (authoredReport reportAttributes nameAttributes)
      (authoredReport reportAttributes.reverse nameAttributes.reverse) where
  reordered := reordered_authoredReport (List.reverse_perm _).symm
    (List.reverse_perm _).symm
  unmixed := by
    intro node element record matched found
    obtain ⟨rfl, rfl⟩ := eq_of_matched_authoredReport matched
    cases found
    decide
  markup := by
    rintro child other ⟨parents, _, both, _⟩
    obtain ⟨rfl, rfl⟩ := eq_of_counterparts_authoredReport parents
    cases List.mem_singleton.1 both
    exact ⟨by decide +kernel, by decide +kernel⟩

/-- With distinct names nothing of a report is lost, in whatever order. -/
theorem keepsOthers_authoredReport :
    Graph.ofComponents reportComponents none = .ok reportGraph ∧
    reportGraph.Rearranged NamesSwapped 0
      (authoredReport reportAttributes nameAttributes)
      (authoredReport reportAttributes.reverse nameAttributes.reverse) ∧
    ∃ record slots other, reportGraph.record? 0 = some record ∧
      reportGraph.transcode {} 0 (authoredReport reportAttributes nameAttributes) =
        .ok (.record slots) ∧
      reportGraph.KeepsOthers record (authoredReport reportAttributes nameAttributes)
        slots ∧
      reportGraph.transcode {} 0
        (authoredReport reportAttributes.reverse nameAttributes.reverse) = .ok other ∧
      (Value.record slots).Alike NamesSwapped other := by
  obtain ⟨elements, _, _⟩ :=
    Graph.keepsOthers_of_ofComponents ofComponents_reportComponents {}
  obtain ⟨value, transcoded⟩ : ∃ value, reportGraph.transcode {} 0
      (authoredReport reportAttributes nameAttributes) = .ok value := ⟨_, rfl⟩
  obtain ⟨⟨slots, rfl, keeps⟩, alike⟩ := elements 0 _ _ _ rfl transcoded
  obtain ⟨other, transcoded', alike⟩ := alike _ _ rearranged_authoredReport
  exact ⟨ofComponents_reportComponents, rearranged_authoredReport, _, slots, other, rfl,
    transcoded, keeps, transcoded', alike⟩

/-- A report with two authors. -/
def coauthoredReport : Element :=
  ⟨⟨"report", none⟩, [⟨⟨"id", none⟩, "7"⟩],
    [.element ⟨"author", none⟩ [] [.text "Ann"], .element ⟨"author", none⟩ [] [.text "Lee"]]⟩

/-- The second author takes the place of the first.  Of attributes with one local name
that counts which comes last, and in captured markup attributes are kept in their
order. -/
theorem replaces_captured :
    Graph.ofComponents reportComponents none = .ok reportGraph ∧
    (∃ record, ∃ slots : Slots, reportGraph.record? 0 = some record ∧
      reportGraph.transcode {} 0 coauthoredReport = .ok (.record slots) ∧
      record.elementWildcard = some 1 ∧
      (reportGraph.sentTo record 1 coauthoredReport.children).map (·.innerMarkup) =
        ["Ann", "Lee"] ∧
      slots.get? 1 = some (.map [("author", "Lee")])) ∧
    ((doubledAttributes.map (·.name)).Nodup ∧
      (authoredReport doubledAttributes []).Reordered
        (authoredReport doubledAttributes.reverse []) ∧
      ∃ value other,
        reportGraph.transcode {} 0 (authoredReport doubledAttributes []) = .ok value ∧
        reportGraph.transcode {} 0 (authoredReport doubledAttributes.reverse []) =
          .ok other ∧
        ¬ value.Alike Eq other) ∧
    ((authoredReport reportAttributes nameAttributes).Reordered
        (authoredReport reportAttributes nameAttributes.reverse) ∧
      ∃ value other,
        reportGraph.transcode {} 0 (authoredReport reportAttributes nameAttributes) =
          .ok value ∧
        reportGraph.transcode {} 0
          (authoredReport reportAttributes nameAttributes.reverse) = .ok other ∧
        ¬ value.Alike Eq other) := by
  refine ⟨ofComponents_reportComponents, ?_, ?_, ?_⟩
  · exact ⟨_, _, rfl, rfl, rfl, by decide +kernel, rfl⟩
  · refine ⟨by decide, reordered_authoredReport (List.reverse_perm _).symm .nil,
      .record [some (.array []), some (.map [("author", "<name/>")]), some (.int 7),
        some (.map [("lang", "de")])],
      .record [some (.array []), some (.map [("author", "<name/>")]), some (.int 7),
        some (.map [("lang", "en")])], rfl, rfl, fun alike => ?_⟩
    cases alike.get? 3 with
    | some alike => exact absurd alike.perm (by decide)
  · refine ⟨reordered_authoredReport (.refl _) (List.reverse_perm _).symm,
      .record [some (.array []),
        some (.map [("author", "<name first=\"Ann\" last=\"Lee\"/>")]), some (.int 7),
        some (.map [("lang", "en"), ("dir", "ltr")])],
      .record [some (.array []),
        some (.map [("author", "<name last=\"Lee\" first=\"Ann\"/>")]), some (.int 7),
        some (.map [("lang", "en"), ("dir", "ltr")])], rfl, rfl, fun alike => ?_⟩
    cases alike.get? 1 with
    | some alike => exact absurd alike.perm (by decide)

end XmlRecords
