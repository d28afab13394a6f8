import XmlRecords.Proofs.TwinDocuments

/-!
# Streams that do not depend on the copy

Handling an event keeps two streams alike, one for a graph and one for its copy,
and so does handling many events.
-/

namespace XmlRecords

namespace Graph

/-- A value that was emitted for a node and for its copy. -/
def SameEmitted (graph : Graph) (place : Nat → Nat) (e f : Emitted) : Prop :=
  graph.SameNode place e.node f.node ∧ f.value = e.value

/-- Streams that have come equally far with a graph and with its copy. -/
structure SameStream (graph : Graph) (place : Nat → Nat) (a b : Stream) :
    Prop where
  depth : b.depth = a.depth
  phase : b.phase = a.phase
  stack : b.stack = a.stack
  parent : Option.Rel (graph.SameNode place) a.parent b.parent

namespace Twins

variable {graph copy : Graph} {place : Nat → Nat} {a b : Stream}

theorem convertAlong_agree (twins : graph.Twins copy place) (zone : Zone)
    (child : Element) {route route' : Route}
    (routes : graph.SameRoute place route route') {r s : Record}
    (paired : graph.Paired place r s) :
    Agree (fun here there =>
        graph.SameNode place here.1 there.1 ∧ there.2 = here.2)
      (graph.convertAlong zone child r route)
      (copy.convertAlong zone child s route') := by
  induction routes generalizing r s with
  | field index =>
      rw [convertAlong, convertAlong, paired.getElem?]
      cases found : r.fields[index]? with
      | none => exact .error rfl
      | some field =>
          obtain ⟨below, same⟩ := twins.elementType
            (paired.reachable (List.mem_of_getElem? found))
          simp only [Option.map_some, Field.moved, same]
          exact (twins.convert_agree zone below child).map
            fun _ _ value => ⟨⟨below, rfl⟩, value.symm⟩
  | group index items more ih =>
      rw [convertAlong, convertAlong]
      exact ih items
  | wildcard index =>
      rw [convertAlong, convertAlong, paired.getElem?]
      cases found : r.fields[index]? with
      | none => exact .error rfl
      | some field =>
          have reachable := paired.reachable (List.mem_of_getElem? found)
          obtain ⟨node, original, present⟩ :=
            twins.mirrors.nodes field.node reachable
          simp only [Option.map_some, Option.bind_some, Field.moved, original,
            present]
          cases node with
          | map values =>
              exact .ok ⟨⟨.target reachable original List.mem_cons_self, rfl⟩,
                rfl⟩
          | _ => exact .error rfl

theorem transcodeChild_agree (twins : graph.Twins copy place)
    (settings : Settings) {r s : Record} (paired : graph.Paired place r s)
    (child : Element) :
    Agree (fun here there =>
        graph.SameNode place here.1 there.1 ∧ there.2 = here.2)
      (graph.transcodeChild settings r child)
      (copy.transcodeChild settings s child) := by
  rw [transcodeChild, transcodeChild]
  refine (Agree.refl (checkDepth settings child)).bind ?_
  rintro _ _ rfl
  have led := twins.route? child.name paired
  generalize graph.route? r child.name = route,
    copy.route? s child.name = route' at led ⊢
  cases led with
  | none => exact .error rfl
  | some routes => exact twins.convertAlong_agree settings.zone child routes paired

theorem childrenRecord_agree (twins : graph.Twins copy place) (name : QName) :
    Agree (graph.SameNode place) (Stream.childrenRecord graph name)
      (Stream.childrenRecord copy name) := by
  rw [Stream.childrenRecord, Stream.childrenRecord]
  refine twins.rootNode_agree.bind ?_
  rintro root _ ⟨reachable, rfl⟩
  have inRecord : ∀ {node}, graph.Reachable node →
      Agree (graph.SameNode place)
        (if (graph.record? node).isSome then pure node
          else throw (.field (.noChildFields name)))
        (if (copy.record? (place node)).isSome then pure (place node)
          else throw (.field (.noChildFields name))) := by
    intro node inside
    have records := twins.record? inside
    generalize graph.record? node = here, copy.record? (place node) = there
      at records ⊢
    cases records with
    | none => exact .error rfl
    | some paired => exact .ok ⟨inside, rfl⟩
  have records := twins.documentRecord? reachable
  generalize graph.documentRecord? root = here,
    copy.documentRecord? (place root) = there at records ⊢
  cases records with
  | none => exact inRecord reachable
  | some paired =>
      refine (documentField_agree paired name).bind ?_
      rintro ⟨_, node⟩ ⟨_, node'⟩ ⟨_, inside, copied⟩
      obtain rfl : node' = place node := copied
      obtain ⟨below, same⟩ := twins.elementType inside
      have agree := inRecord below
      rw [← same] at agree
      exact agree

theorem checkRoot_agree (twins : graph.Twins copy place) (settings : Settings)
    (name : QName) (attributes : List Attribute) :
    Agree (graph.SameNode place)
      (Stream.checkRoot graph settings name attributes)
      (Stream.checkRoot copy settings name attributes) := by
  rw [Stream.checkRoot, Stream.checkRoot]
  refine (twins.childrenRecord_agree name).bind ?_
  rintro parent _ ⟨reachable, rfl⟩
  have records := twins.record? reachable
  generalize graph.record? parent = here, copy.record? (place parent) = there
    at records ⊢
  cases records with
  | none => exact .ok ⟨reachable, rfl⟩
  | @some r s paired =>
      have checked : Agree Eq (graph.checkAttributes settings r attributes)
          (copy.checkAttributes settings s attributes) := by
        rw [checkAttributes, checkAttributes, twins.emptySlots paired]
        exact (twins.placeAttributes_agree settings.zone paired attributes _).bind
          fun _ _ _ => .refl _
      exact checked.bind fun _ _ _ => .ok ⟨reachable, rfl⟩

theorem emit_agree (twins : graph.Twins copy place) (settings : Settings)
    (streams : graph.SameStream place a b) (element : Element) :
    Agree (graph.SameEmitted place) (a.emit graph settings element)
      (b.emit copy settings element) := by
  rw [Stream.emit, Stream.emit, streams.depth]
  cases a.depth with
  | root =>
      refine twins.rootNode_agree.bind ?_
      rintro root _ ⟨reachable, rfl⟩
      refine (twins.transcodeRoot_agree settings reachable element).bind ?_
      rintro value _ rfl
      exact .ok ⟨⟨reachable, rfl⟩, rfl⟩
  | children =>
      have records : Option.Rel (graph.Paired place)
          (a.parent.bind graph.record?) (b.parent.bind copy.record?) := by
        have parents := streams.parent
        generalize a.parent = here, b.parent = there at parents ⊢
        cases parents with
        | none => exact .none
        | some node =>
            obtain ⟨reachable, rfl⟩ := node
            exact twins.record? reachable
      generalize a.parent.bind graph.record? = here,
        b.parent.bind copy.record? = there at records ⊢
      cases records with
      | none => exact .error rfl
      | some paired =>
          exact (twins.transcodeChild_agree settings paired element).bind
            fun here there same => .ok same

theorem start_same (twins : graph.Twins copy place) (settings : Settings)
    (streams : graph.SameStream place a b) (name : QName)
    (attributes : List Attribute) :
    graph.SameStream place (a.start graph settings name attributes).1
        (b.start copy settings name attributes).1 ∧
      Agree (Option.Rel (graph.SameEmitted place))
        (a.start graph settings name attributes).2
        (b.start copy settings name attributes).2 := by
  obtain ⟨_, _, _, _⟩ := a
  obtain ⟨depth, _, _, _⟩ := b
  obtain ⟨rfl, rfl, rfl, parent⟩ := streams
  rw [Stream.start, Stream.start]
  dsimp only
  split
  · exact ⟨⟨rfl, rfl, rfl, parent⟩, .error rfl⟩
  · split
    · exact ⟨⟨rfl, rfl, rfl, parent⟩, .ok .none⟩
    · cases depth with
      | root => exact ⟨⟨rfl, rfl, rfl, parent⟩, .ok .none⟩
      | children =>
          have checked := twins.checkRoot_agree settings name attributes
          generalize Stream.checkRoot graph settings name attributes = here,
            Stream.checkRoot copy settings name attributes = there
            at checked ⊢
          cases checked with
          | error kind => exact ⟨⟨rfl, rfl, rfl, parent⟩, .error kind⟩
          | ok same => exact ⟨⟨rfl, rfl, rfl, .some same⟩, .ok .none⟩

theorem text_same (streams : graph.SameStream place a b) (value : String) :
    graph.SameStream place (a.text value).1 (b.text value).1 ∧
      Agree (Option.Rel (graph.SameEmitted place)) (a.text value).2
        (b.text value).2 := by
  obtain ⟨_, _, _, _⟩ := a
  obtain ⟨_, _, stack, _⟩ := b
  obtain ⟨rfl, rfl, rfl, parent⟩ := streams
  rw [Stream.text, Stream.text]
  cases stack with
  | cons top others => exact ⟨⟨rfl, rfl, rfl, parent⟩, .ok .none⟩
  | nil =>
      dsimp only
      split
      · exact ⟨⟨rfl, rfl, rfl, parent⟩, .ok .none⟩
      · exact ⟨⟨rfl, rfl, rfl, parent⟩, .error rfl⟩

theorem finish_same (twins : graph.Twins copy place) (settings : Settings)
    (streams : graph.SameStream place a b) :
    graph.SameStream place (a.finish graph settings).1
        (b.finish copy settings).1 ∧
      Agree (Option.Rel (graph.SameEmitted place)) (a.finish graph settings).2
        (b.finish copy settings).2 := by
  obtain ⟨_, _, _, _⟩ := a
  obtain ⟨_, _, stack, _⟩ := b
  obtain ⟨rfl, rfl, rfl, parent⟩ := streams
  rw [Stream.finish, Stream.finish]
  cases stack with
  | nil => exact ⟨⟨rfl, rfl, rfl, parent⟩, .error rfl⟩
  | cons top others =>
      dsimp only
      split
      · refine ⟨⟨rfl, rfl, rfl, parent⟩, ?_⟩
        refine (twins.emit_agree settings ?_ top.close).map ?_
        · exact ⟨rfl, rfl, rfl, parent⟩
        · exact fun _ _ same => Option.Rel.some same
      · cases others with
        | nil => exact ⟨⟨rfl, rfl, rfl, parent⟩, .ok .none⟩
        | cons outer rest => exact ⟨⟨rfl, rfl, rfl, parent⟩, .ok .none⟩

/-- An event keeps streams alike and has the same result. -/
theorem handle_same (twins : graph.Twins copy place) (settings : Settings)
    (streams : graph.SameStream place a b) (event : Event) :
    graph.SameStream place (a.handle graph settings event).1
        (b.handle copy settings event).1 ∧
      Agree (Option.Rel (graph.SameEmitted place))
        (a.handle graph settings event).2 (b.handle copy settings event).2 := by
  unfold Stream.handle
  rw [streams.phase]
  split
  · exact ⟨streams, .error rfl⟩
  · cases event with
    | start name attributes =>
        exact twins.start_same settings streams name attributes
    | text value => exact text_same streams value
    | finish => exact twins.finish_same settings streams

/-- Many events keep streams alike and have the same results. -/
theorem handleAll_same (twins : graph.Twins copy place) (settings : Settings)
    (streams : graph.SameStream place a b) (events : List Event) :
    graph.SameStream place (a.handleAll graph settings events).1
        (b.handleAll copy settings events).1 ∧
      List.Forall₂ (graph.SameEmitted place)
        (a.handleAll graph settings events).2.1
        (b.handleAll copy settings events).2.1 ∧
      Option.Rel (fun e f : Error => e.label = f.label)
        (a.handleAll graph settings events).2.2
        (b.handleAll copy settings events).2.2 := by
  induction events generalizing a b with
  | nil => exact ⟨streams, .nil, .none⟩
  | cons event rest ih =>
      obtain ⟨later, result⟩ := twins.handle_same settings streams event
      rw [Stream.handleAll, Stream.handleAll]
      generalize a.handle graph settings event = here,
        b.handle copy settings event = there at later result ⊢
      obtain ⟨a', x⟩ := here
      obtain ⟨b', y⟩ := there
      cases result with
      | error kind => exact ⟨later, .nil, .some kind⟩
      | ok same =>
          obtain ⟨last, emitted, error⟩ := ih later
          refine ⟨last, ?_, error⟩
          cases same with
          | none => exact emitted
          | some first => exact .cons first emitted

end Twins

end Graph

end XmlRecords
