import XmlRecords.Proofs.Congruence
import XmlRecords.Proofs.InnerMarkupRoundTrip

/-!
# Attributes that carry no data

Declarations of namespaces and annotations of the instance are passed over in three
places: where attributes are put into a record, where those of a document element are
checked before it is split, and where content is written as markup.  So it makes no
difference whether they are there.  A document without them, at every level, is
transcoded to the same values or refused with the same error, and a stream of its events
goes through the same states.
-/

namespace XmlRecords

/-- The attributes that carry data. -/
def Attribute.ofData (attributes : List Attribute) : List Attribute :=
  attributes.filter (!·.isMeta)

theorem Attribute.ofData_ofData (attributes : List Attribute) :
    ofData (ofData attributes) = ofData attributes := by
  rw [ofData, ofData, List.filter_filter]
  simp only [Bool.and_self]

namespace Content

theorem withoutMetaList_eq_map (items : List Content) :
    withoutMetaList items = items.map withoutMeta := by
  induction items with
  | nil => rfl
  | cons item rest ih => rw [withoutMetaList, ih, List.map_cons]

mutual

theorem write_withoutMeta (scope : Option String) (item : Content) :
    item.withoutMeta.write scope = item.write scope := by
  cases item with
  | text value => rfl
  | element name attributes content =>
      have data := Attribute.ofData_ofData attributes
      rw [Attribute.ofData, Attribute.ofData] at data
      have empty : (withoutMetaList content).isEmpty = content.isEmpty := by
        cases content <;> rfl
      rw [withoutMeta, write, write, data, empty, writeList_withoutMetaList name.ns content]

theorem writeList_withoutMetaList (scope : Option String) (items : List Content) :
    writeList scope (withoutMetaList items) = writeList scope items := by
  cases items with
  | nil => rfl
  | cons item rest =>
      rw [withoutMetaList, writeList, writeList, write_withoutMeta scope item,
        writeList_withoutMetaList scope rest]

end

theorem filterMap_text?_withoutMetaList (items : List Content) :
    (withoutMetaList items).filterMap text? = items.filterMap text? := by
  induction items with
  | nil => rfl
  | cons item rest ih =>
      cases item with
      | text value => simp [withoutMetaList, withoutMeta, text?, ih]
      | element name attributes content => exact ih

theorem pushText_withoutMetaList (latest : List Content) (run : String) :
    pushText (withoutMetaList latest) run = withoutMetaList (pushText latest run) := by
  match latest with
  | [] | .text value :: rest | .element name attributes content :: rest =>
      simp only [withoutMetaList, withoutMeta, pushText]
      split <;> rfl

end Content

namespace Element

/-- The same element without the attributes that carry no data, also in the elements
within. -/
def withoutMeta (e : Element) : Element :=
  ⟨e.name, Attribute.ofData e.attributes, Content.withoutMetaList e.content⟩

@[simp]
theorem innerMarkup_withoutMeta (e : Element) :
    e.withoutMeta.innerMarkup = e.innerMarkup := by
  rw [innerMarkup, withoutMeta, Content.writeList_withoutMetaList, innerMarkup]

@[simp]
theorem text_withoutMeta (e : Element) : e.withoutMeta.text = e.text := by
  rw [text, withoutMeta, Content.filterMap_text?_withoutMetaList, text]

@[simp]
theorem depth_withoutMeta (e : Element) : e.withoutMeta.depth = e.depth :=
  Content.depth_withoutMeta (.ofElement e)

end Element

namespace Graph

variable {graph : Graph} {c d : Child} {cs ds : List Child} {record : Record}

/-- Two children of one name become the same against every node, and leave the same
markup. -/
structure LikeChild (c d : Child) : Prop where
  name : d.element.name = c.element.name
  markup : d.element.innerMarkup = c.element.innerMarkup
  convert : d.convert = c.convert

theorem LikeChild.place_eq (like : LikeChild c d) (record : Record) (route : Route)
    (slots : Slots) : graph.place d record route slots = graph.place c record route slots := by
  induction route generalizing record slots with
  | field index =>
      rw [place, place, like.convert, like.name]
  | group index item rest ih =>
      rw [place, place]
      simp only [ih]
  | wildcard index =>
      rw [place, place, like.name, like.markup]

theorem placeChildren_eq (like : List.Forall₂ LikeChild cs ds) (slots : Slots) :
    graph.placeChildren record slots ds = graph.placeChildren record slots cs := by
  induction like generalizing slots with
  | nil => rfl
  | cons first _ ih =>
      rw [placeChildren, placeChildren, first.name]
      simp only [first.place_eq, ih]

/-- Attributes without data are passed over. -/
theorem placeAttributes_ofData (zone : Zone) (record : Record) (slots : Slots)
    (attributes : List Attribute) :
    graph.placeAttributes zone record slots (Attribute.ofData attributes) =
      graph.placeAttributes zone record slots attributes := by
  induction attributes generalizing slots with
  | nil => rfl
  | cons a rest ih =>
      rw [Attribute.ofData] at ih
      rw [Attribute.ofData, List.filter_cons]
      cases isMeta : a.isMeta with
      | true =>
          conv_rhs => rw [placeAttributes, if_pos isMeta]
          exact ih slots
      | false =>
          rw [Bool.not_false, if_pos rfl, placeAttributes, placeAttributes, isMeta]
          simp only [ih]

theorem entries_eq_of_like (like : List.Forall₂ LikeChild cs ds)
    (entries : List (String × String)) :
    ds.foldl (fun entries (child : Child) => Association.insert child.element.name.name
        child.element.innerMarkup entries) entries =
      cs.foldl (fun entries (child : Child) => Association.insert child.element.name.name
        child.element.innerMarkup entries) entries := by
  induction like generalizing entries with
  | nil => rfl
  | cons first _ ih =>
      rw [List.foldl_cons, List.foldl_cons, first.name, first.markup]
      exact ih _

theorem mapM_convert_eq (like : List.Forall₂ LikeChild cs ds) (node : Nat) :
    ds.mapM (fun child : Child => child.convert node) =
      cs.mapM (fun child : Child => child.convert node) := by
  induction like with
  | nil => rfl
  | cons first _ ih => rw [List.mapM_cons, List.mapM_cons, first.convert, ih]

theorem convertWith_withoutMeta (zone : Zone) (element : Element)
    (like : List.Forall₂ LikeChild cs ds) (fuel node : Nat) :
    graph.convertWith zone element.withoutMeta ds fuel node =
      graph.convertWith zone element cs fuel node := by
  induction fuel generalizing node with
  | zero => rfl
  | succ fuel ih =>
      rw [convertWith, convertWith]
      split
      · rfl
      · rw [Element.text_withoutMeta]
      · simp only [placeChildren_eq like, Element.withoutMeta, placeAttributes_ofData]
        simp only [← Element.withoutMeta.eq_1, ih]
      · rw [mapM_convert_eq like]
      · exact ih _
      · rw [entries_eq_of_like like]

mutual

/-- The elements among items of content become the same without attributes that carry
no data. -/
theorem like_childrenOf (zone : Zone) (items : List Content) :
    List.Forall₂ LikeChild (graph.childrenOf zone items)
      (graph.childrenOf zone (Content.withoutMetaList items)) := by
  cases items with
  | nil => exact .nil
  | cons item rest =>
      rw [Content.withoutMetaList, childrenOf, childrenOf]
      exact List.rel_append (like_child? zone item) (like_childrenOf zone rest)

theorem like_child? (zone : Zone) (item : Content) :
    List.Forall₂ LikeChild (graph.child? zone item).toList
      (graph.child? zone item.withoutMeta).toList := by
  cases item with
  | text value => exact .nil
  | element name attributes content =>
      have children := like_childrenOf zone content
      rw [Content.withoutMeta, child?, child?]
      refine .cons ⟨rfl, Element.innerMarkup_withoutMeta ⟨name, attributes, content⟩, ?_⟩ .nil
      funext node
      exact convertWith_withoutMeta zone ⟨name, attributes, content⟩ children _ node

end

theorem convert_withoutMeta (zone : Zone) (node : Nat) (element : Element) :
    graph.convert zone node element.withoutMeta = graph.convert zone node element :=
  convertWith_withoutMeta zone element (like_childrenOf zone element.content) _ node

theorem checkDepth_withoutMeta (settings : Settings) (element : Element) :
    checkDepth settings element.withoutMeta = checkDepth settings element := by
  rw [checkDepth, Element.depth_withoutMeta, checkDepth]

theorem transcode_withoutMeta (settings : Settings) (node : Nat) (element : Element) :
    graph.transcode settings node element.withoutMeta =
      graph.transcode settings node element := by
  rw [transcode, transcode, checkDepth_withoutMeta, convert_withoutMeta]

theorem transcodeRoot_withoutMeta (settings : Settings) (node : Nat) (element : Element) :
    graph.transcodeRoot settings node element.withoutMeta =
      graph.transcodeRoot settings node element := by
  rw [transcodeRoot, transcodeRoot, checkDepth_withoutMeta]
  simp only [convert_withoutMeta]
  rfl

theorem transcodeDocument_withoutMeta (settings : Settings) (element : Element) :
    graph.transcodeDocument settings element.withoutMeta =
      graph.transcodeDocument settings element := by
  simp only [transcodeDocument, transcodeRoot_withoutMeta]

theorem convertAlong_withoutMeta (zone : Zone) (child : Element) (record : Record)
    (route : Route) :
    graph.convertAlong zone child.withoutMeta record route =
      graph.convertAlong zone child record route := by
  induction route generalizing record with
  | field index =>
      rw [convertAlong, convertAlong]
      simp only [convert_withoutMeta]
      rfl
  | group index item rest ih => exact ih item
  | wildcard index =>
      rw [convertAlong, convertAlong, Element.innerMarkup_withoutMeta]
      rfl

theorem transcodeChild_withoutMeta (settings : Settings) (record : Record)
    (child : Element) :
    graph.transcodeChild settings record child.withoutMeta =
      graph.transcodeChild settings record child := by
  rw [transcodeChild, transcodeChild, checkDepth_withoutMeta]
  simp only [convertAlong_withoutMeta]
  rfl

theorem checkAttributes_ofData (settings : Settings) (record : Record)
    (attributes : List Attribute) :
    graph.checkAttributes settings record (Attribute.ofData attributes) =
      graph.checkAttributes settings record attributes := by
  rw [checkAttributes, placeAttributes_ofData, checkAttributes]

end Graph

/-- The same event without the attributes that carry no data. -/
def Event.withoutMeta : Event → Event
  | .start name attributes => .start name (Attribute.ofData attributes)
  | event => event

/-- The same open element without the attributes that carry no data, also in what it
holds already. -/
def OpenElement.withoutMeta (e : OpenElement) : OpenElement :=
  ⟨e.name, Attribute.ofData e.attributes, Content.withoutMetaList e.content⟩

theorem OpenElement.close_withoutMeta (e : OpenElement) :
    e.withoutMeta.close = e.close.withoutMeta := by
  simp only [close, withoutMeta, Element.withoutMeta, Content.withoutMetaList_eq_map,
    List.map_reverse]

namespace Stream

variable {graph : Graph} {settings : Settings}

/-- A stream that has come equally far without the attributes that carry no data. -/
def withoutMeta (stream : Stream) : Stream :=
  { stream with stack := stream.stack.map OpenElement.withoutMeta }

theorem checkRoot_ofData (name : QName) (attributes : List Attribute) :
    checkRoot graph settings name (Attribute.ofData attributes) =
      checkRoot graph settings name attributes := by
  simp only [checkRoot, Graph.checkAttributes_ofData]

theorem emit_withoutMeta (graph : Graph) (settings : Settings) (stream : Stream)
    (element : Element) :
    stream.withoutMeta.emit graph settings element.withoutMeta =
      stream.emit graph settings element := by
  rw [emit, emit]
  cases stream with
  | mk depth phase stack parent =>
      cases depth with
      | root => simp only [withoutMeta, Graph.transcodeRoot_withoutMeta]
      | children => simp only [withoutMeta, Graph.transcodeChild_withoutMeta]

theorem start_withoutMeta (stream : Stream) (name : QName) (attributes : List Attribute) :
    stream.withoutMeta.start graph settings name (Attribute.ofData attributes) =
      ((stream.start graph settings name attributes).1.withoutMeta,
        (stream.start graph settings name attributes).2) := by
  obtain ⟨depth, phase, stack, parent⟩ := stream
  simp only [start, withoutMeta, List.length_map, List.isEmpty_map, checkRoot_ofData]
  split
  · rfl
  · split
    · rfl
    · cases depth with
      | root => rfl
      | children =>
          dsimp only
          cases checkRoot graph settings name attributes with
          | error e => rfl
          | ok parent => rfl

theorem text_withoutMeta (stream : Stream) (value : String) :
    stream.withoutMeta.text value =
      ((stream.text value).1.withoutMeta, (stream.text value).2) := by
  obtain ⟨depth, phase, stack, parent⟩ := stream
  cases stack with
  | nil =>
      simp only [text, withoutMeta, List.map_nil]
      split <;> rfl
  | cons top others =>
      simp only [text, withoutMeta, List.map_cons, OpenElement.withoutMeta,
        Content.pushText_withoutMetaList]

theorem finish_withoutMeta (stream : Stream) :
    stream.withoutMeta.finish graph settings =
      ((stream.finish graph settings).1.withoutMeta,
        (stream.finish graph settings).2) := by
  obtain ⟨depth, phase, stack, parent⟩ := stream
  cases stack with
  | nil => rfl
  | cons top others =>
      have emits := fun stream : Stream =>
        emit_withoutMeta graph settings stream top.close
      simp only [finish, withoutMeta, List.map_cons, List.length_cons, List.length_map,
        List.isEmpty_map, OpenElement.close_withoutMeta]
      split
      · simp only [withoutMeta] at emits
        rw [← emits]
      · cases others with
        | nil => rfl
        | cons outer rest => rfl

theorem handle_withoutMeta (stream : Stream) (event : Event) :
    stream.withoutMeta.handle graph settings event.withoutMeta =
      ((stream.handle graph settings event).1.withoutMeta,
        (stream.handle graph settings event).2) := by
  by_cases finished : stream.phase = .finished
  · have also : stream.withoutMeta.phase = .finished := finished
    simp only [handle, finished, also, if_true]
  · have also : stream.withoutMeta.phase ≠ .finished := finished
    simp only [handle, finished, also, if_false]
    cases event with
    | start name attributes => exact start_withoutMeta stream name attributes
    | text value => exact text_withoutMeta stream value
    | finish => exact finish_withoutMeta stream

/-- What comes of events does not depend on attributes without data, and the stream
behind them does so only by what it holds of them. -/
theorem handleAll_withoutMeta (stream : Stream) (events : List Event) :
    stream.withoutMeta.handleAll graph settings (events.map Event.withoutMeta) =
      ((stream.handleAll graph settings events).1.withoutMeta,
        (stream.handleAll graph settings events).2) := by
  induction events generalizing stream with
  | nil => rfl
  | cons event rest ih =>
      rw [List.map_cons, handleAll, handleAll, handle_withoutMeta]
      obtain ⟨next, ended⟩ := stream.handle graph settings event
      cases ended with
      | error e => rfl
      | ok emitted => simp only [ih]

mutual

theorem eventsOf_withoutMeta (item : Content) :
    eventsOf item.withoutMeta = (eventsOf item).map Event.withoutMeta := by
  cases item with
  | text value => rfl
  | element name attributes content =>
      rw [Content.withoutMeta, eventsOf, eventsOf, eventsOfList_withoutMetaList content,
        List.map_cons, List.map_append]
      rfl

theorem eventsOfList_withoutMetaList (items : List Content) :
    eventsOfList (Content.withoutMetaList items) =
      (eventsOfList items).map Event.withoutMeta := by
  cases items with
  | nil => rfl
  | cons item rest =>
      rw [Content.withoutMetaList, eventsOfList, eventsOfList, eventsOf_withoutMeta item,
        eventsOfList_withoutMetaList rest, List.map_append]

end

theorem replay_withoutMeta (graph : Graph) (settings : Settings) (stream : Stream)
    (element : Element) :
    stream.withoutMeta.replay graph settings element.withoutMeta =
      ((stream.replay graph settings element).1.withoutMeta,
        (stream.replay graph settings element).2) := by
  have events : eventsOf (.ofElement element.withoutMeta) =
      (eventsOf (.ofElement element)).map Event.withoutMeta :=
    eventsOf_withoutMeta (.ofElement element)
  rw [replay, replay, events, handleAll_withoutMeta]

theorem check_withoutMeta (stream : Stream) :
    stream.withoutMeta.check = stream.check := by
  rw [check, check, withoutMeta, List.length_map]

end Stream

/-- Elements that are equal without the attributes that carry no data, at every level,
become the same value or are refused with the same error: against any node, as a
document, and as a child of any record.  Their attributes pass the same checks, and
their events yield the same values up to the same error, whether a document is split or
not. -/
theorem Graph.results_eq_of_withoutMeta_eq (graph : Graph) (settings : Settings)
    {element twin : Element} (same : element.withoutMeta = twin.withoutMeta) :
    (∀ node, graph.transcode settings node element =
      graph.transcode settings node twin) ∧
    graph.transcodeDocument settings element = graph.transcodeDocument settings twin ∧
    (∀ record, graph.transcodeChild settings record element =
      graph.transcodeChild settings record twin) ∧
    (∀ record, graph.checkAttributes settings record element.attributes =
      graph.checkAttributes settings record twin.attributes) ∧
    ∀ depth,
      (({ depth } : Stream).replay graph settings element).2 =
        (({ depth } : Stream).replay graph settings twin).2 ∧
      (({ depth } : Stream).replay graph settings element).1.check =
        (({ depth } : Stream).replay graph settings twin).1.check := by
  refine ⟨?_, ?_, ?_, ?_, ?_⟩
  · intro node
    rw [← transcode_withoutMeta, same, transcode_withoutMeta]
  · rw [← transcodeDocument_withoutMeta, same, transcodeDocument_withoutMeta]
  · intro record
    rw [← transcodeChild_withoutMeta, same, transcodeChild_withoutMeta]
  · intro record
    have data : Attribute.ofData element.attributes = Attribute.ofData twin.attributes :=
      congrArg Element.attributes same
    rw [← checkAttributes_ofData, data, checkAttributes_ofData]
  · intro depth
    have one := Stream.replay_withoutMeta graph settings { depth } element
    have two := Stream.replay_withoutMeta graph settings { depth } twin
    rw [same, two] at one
    obtain ⟨ended, results⟩ := Prod.mk.inj one
    constructor
    · exact results.symm
    · rw [← Stream.check_withoutMeta, ← ended, Stream.check_withoutMeta]

/-- A report like the one above, with a schema location and a declaration of a namespace
where its author stands. -/
def annotatedReport : Element :=
  ⟨⟨"report", none⟩,
    [⟨⟨"noNamespaceSchemaLocation", some instanceNamespace⟩, "report.xsd"⟩,
      ⟨⟨"id", none⟩, "7"⟩, ⟨⟨"lang", none⟩, "en"⟩], [
    .element ⟨"note", none⟩ [⟨⟨"id", none⟩, "1"⟩] [.text "a"],
    .element ⟨"report", none⟩ [⟨⟨"id", none⟩, "8"⟩]
      [.element ⟨"note", none⟩ [⟨⟨"nil", some instanceNamespace⟩, "false"⟩] [.text "c"]],
    .element ⟨"author", none⟩ [⟨.unqualified "xmlns", "urn:a"⟩] [.text "b"]]⟩

theorem results_eq_annotatedReport :
    annotatedReport.withoutMeta = report.withoutMeta ∧
      annotatedReport.attributes ≠ report.attributes ∧
      reportGraph.transcodeDocument {} annotatedReport =
        reportGraph.transcodeDocument {} report := by
  have same : annotatedReport.withoutMeta = report.withoutMeta := rfl
  exact ⟨same, by decide,
    (Graph.results_eq_of_withoutMeta_eq reportGraph {} same).2.1⟩

end XmlRecords
