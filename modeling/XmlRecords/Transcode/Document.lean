import XmlRecords.Transcode.Record

/-!
# Transcoding documents

An element becomes a value of the node that it is matched against, and the
document element is matched against the root.  Where the root stands for the
choice of a document element, the field of that element alone is filled.

A child of the document element can also be transcoded by itself, against the
node that its route ends in.
-/

namespace XmlRecords

/-- What transcoding depends on besides the schema: the zone of date-times
without an offset, and the most levels of elements. -/
structure Settings where
  zone : Zone := .utc
  maxDepth : Nat := 256

namespace Graph

/-- Make a value of a node from an element whose children are known, within a
bounded number of steps from node to node. -/
def convertWith (graph : Graph) (zone : Zone) (element : Element)
    (children : List Child) : Nat → Nat → Except Error Value
  | 0, _ => .error (.field .nothingToSplit)
  | fuel + 1, node =>
      match graph.node? node with
      | none => .error (.field (.notARecord node))
      | some (.primitive kind logical) =>
          Value.readPrimitive zone kind logical element.text
      | some (.record record) => do
          let slots ←
            graph.placeChildren record (graph.emptySlots record) children
          let slots ←
            graph.placeAttributes zone record slots element.attributes
          match record.text, record.text.bind (record.fields[·]?) with
          | some index, some field => do
              let value ←
                graph.convertWith zone element children fuel field.node
              return .record (slots.put index value)
          | _, _ => return .record slots
      | some (.array item) =>
          (children.mapM fun (child : Child) => child.convert item).map .array
      | some (.optional inner) =>
          graph.convertWith zone element children fuel inner
      | some (.map _) =>
          .ok (.map (children.foldl (fun entries (child : Child) =>
            Association.insert child.element.name.name
              child.element.innerMarkup entries) []))

mutual

/-- Prepare an item of content, if it is an element. -/
def child? (graph : Graph) (zone : Zone) : Content → Option Child
  | .text _ => none
  | .element name attributes content =>
      let children := graph.childrenOf zone content
      let element : Element := ⟨name, attributes, content⟩
      some ⟨element,
        graph.convertWith zone element children (graph.nodes.size + 1)⟩

/-- Prepare the elements among items of content. -/
def childrenOf (graph : Graph) (zone : Zone) : List Content → List Child
  | [] => []
  | item :: items =>
      (graph.child? zone item).toList ++ graph.childrenOf zone items

end

/-- Make a value of a node from an element. -/
def convert (graph : Graph) (zone : Zone) (node : Nat) (element : Element) :
    Except Error Value :=
  graph.convertWith zone element (graph.childrenOf zone element.content)
    (graph.nodes.size + 1) node

/-- Refuse elements with too many levels. -/
def checkDepth (settings : Settings) (element : Element) : Except Error Unit :=
  if settings.maxDepth < element.depth then
    .error (.markup (.tooDeep settings.maxDepth))
  else .ok ()

/-- Transcode an element against a node. -/
def transcode (graph : Graph) (settings : Settings) (node : Nat)
    (element : Element) : Except Error Value := do
  checkDepth settings element
  graph.convert settings.zone node element

/-- The root of a graph. -/
def rootNode (graph : Graph) : Except Error Nat :=
  match graph.root with
  | some root => .ok root
  | none => .error (.schema .noRoot)

/-- The place and the node of the field for a document element. -/
def documentField (record : Record) (name : QName) : Except Error (Nat × Nat) :=
  match record.elementField? name with
  | none => .error (.field (.unknownRoot name))
  | some index =>
      match record.fields[index]? with
      | some field => .ok (index, field.node)
      | none => .error (.field (.unknownRoot name))

/-- The record that stands for the choice of a document element, if a node is
one. -/
def documentRecord? (graph : Graph) (node : Nat) : Option Record :=
  (graph.record? node).filter (·.source == .document)

/-- Transcode a document element against a node. -/
def transcodeRoot (graph : Graph) (settings : Settings) (node : Nat)
    (element : Element) : Except Error Value := do
  checkDepth settings element
  match graph.documentRecord? node with
  | none => graph.convert settings.zone node element
  | some record =>
      let (index, inner) ← documentField record element.name
      let value ← graph.convert settings.zone inner element
      return .record
        (Slots.put (record.fields.map fun _ => none) index value)

/-- Transcode a document element against the root. -/
def transcodeDocument (graph : Graph) (settings : Settings)
    (element : Element) : Except Error Value := do
  graph.transcodeRoot settings (← graph.rootNode) element

/-- Transcode a child of an element matched against a record, along its route.
The result names the node that the value belongs to. -/
def convertAlong (graph : Graph) (zone : Zone) (child : Element)
    (record : Record) : Route → Except Error (Nat × Value)
  | .field index =>
      match record.fields[index]? with
      | none => .error (.field (.unknownElement child.name record.title))
      | some field =>
          let node := graph.elementType field.node
          (graph.convert zone node child).map (node, ·)
  | .group _ item rest => graph.convertAlong zone child item rest
  | .wildcard index =>
      match record.fields[index]?.bind fun field => graph.node? field.node with
      | some (.map values) => .ok (values, .string child.innerMarkup)
      | _ => .error (.field (.unknownElement child.name record.title))

/-- Transcode a child of an element matched against a record. -/
def transcodeChild (graph : Graph) (settings : Settings) (record : Record)
    (child : Element) : Except Error (Nat × Value) := do
  checkDepth settings child
  match graph.route? record child.name with
  | none => throw (.field (.unknownElement child.name record.title))
  | some route => graph.convertAlong settings.zone child record route

/-- Check attributes as those of an element matched against a record. -/
def checkAttributes (graph : Graph) (settings : Settings) (record : Record)
    (attributes : List Attribute) : Except Error Unit := do
  let _ ← graph.placeAttributes settings.zone record (graph.emptySlots record)
    attributes

end Graph

end XmlRecords
