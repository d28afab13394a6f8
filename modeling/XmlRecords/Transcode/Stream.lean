import XmlRecords.Transcode.Document
import XmlRecords.Xml.Event

/-!
# Transcoding a stream of events

Elements are collected while they are open.  When one closes at the depth at
which values are due, it is transcoded and forgotten, so a document that is
split into the children of its document element is never held as a whole.
-/

namespace XmlRecords

/-- Which elements become values: the document element, or each of its
children. -/
inductive EmitDepth where
  | root
  | children
  deriving DecidableEq, Repr

/-- The number of open elements, the closing one included, at which a value is
due. -/
def EmitDepth.level : EmitDepth → Nat
  | .root => 1
  | .children => 2

/-- How far a document has come. -/
inductive StreamPhase where
  | beforeRoot
  | building
  | finished
  deriving DecidableEq, Repr

/-- A value and the node that it belongs to. -/
structure Emitted where
  node : Nat
  value : Value

/-- An open element with its latest item first. -/
structure OpenElement where
  name : QName
  attributes : List Attribute
  content : List Content

/-- The element that an open element has become. -/
def OpenElement.close (e : OpenElement) : Element :=
  ⟨e.name, e.attributes, e.content.reverse⟩

/-- A document on its way: its phase, its open elements with the innermost
first, and the record that its children are matched against. -/
structure Stream where
  depth : EmitDepth
  phase : StreamPhase := .beforeRoot
  stack : List OpenElement := []
  parent : Option Nat := none

namespace Stream

/-- The number of children that the document element still holds. -/
def retained (stream : Stream) : Nat :=
  match stream.stack.getLast? with
  | none => 0
  | some root => (root.content.filterMap Content.element?).length

/-- The node of the record that describes the children of a document
element. -/
def childrenRecord (graph : Graph) (name : QName) : Except Error Nat := do
  let root ← graph.rootNode
  let node ←
    match graph.documentRecord? root with
    | none => pure root
    | some record => do
        let (_, inner) ← Graph.documentField record name
        pure (graph.elementType inner)
  if (graph.record? node).isSome then return node
  else throw (.field (.noChildFields name))

/-- Check the document element of a document that is going to be split.  The
result is the node that its children are matched against. -/
def checkRoot (graph : Graph) (settings : Settings) (name : QName)
    (attributes : List Attribute) : Except Error Nat := do
  let parent ← childrenRecord graph name
  match graph.record? parent with
  | some record => graph.checkAttributes settings record attributes
  | none => pure ()
  return parent

/-- Open an element. -/
def push (stream : Stream) (name : QName) (attributes : List Attribute) :
    Stream :=
  { stream with stack := ⟨name, attributes, []⟩ :: stream.stack }

/-- Handle a start tag. -/
def start (graph : Graph) (settings : Settings) (stream : Stream)
    (name : QName) (attributes : List Attribute) :
    Stream × Except Error (Option Emitted) :=
  if settings.maxDepth ≤ stream.stack.length then
    (stream, .error (.markup (.tooDeep settings.maxDepth)))
  else if !stream.stack.isEmpty then (stream.push name attributes, .ok none)
  else
    let stream := { stream with phase := .building }
    match stream.depth with
    | .root => (stream.push name attributes, .ok none)
    | .children =>
        match checkRoot graph settings name attributes with
        | .error error => (stream, .error error)
        | .ok parent =>
            ({ stream with parent := some parent }.push name attributes,
              .ok none)

/-- Handle character data. -/
def text (stream : Stream) (value : String) :
    Stream × Except Error (Option Emitted) :=
  match stream.stack with
  | top :: others =>
      let content := Content.pushText top.content value
      ({ stream with stack := { top with content } :: others }, .ok none)
  | [] =>
      if Text.isAllBlank value then (stream, .ok none)
      else (stream, .error (.markup .outsideDocument))

/-- Transcode an element that has closed where a value is due. -/
def emit (graph : Graph) (settings : Settings) (stream : Stream)
    (element : Element) : Except Error Emitted :=
  match stream.depth with
  | .root => do
      let node ← graph.rootNode
      return ⟨node, ← graph.transcodeRoot settings node element⟩
  | .children =>
      match stream.parent.bind graph.record? with
      | none => .error (.field .nothingToSplit)
      | some record => do
          let (node, value) ← graph.transcodeChild settings record element
          return ⟨node, value⟩

/-- Handle an end tag. -/
def finish (graph : Graph) (settings : Settings) (stream : Stream) :
    Stream × Except Error (Option Emitted) :=
  match stream.stack with
  | [] => (stream, .error (.markup .unopened))
  | top :: others =>
      let level := stream.stack.length
      let phase := if others.isEmpty then .finished else stream.phase
      let stream := { stream with stack := others, phase }
      if level = stream.depth.level then
        (stream, (stream.emit graph settings top.close).map some)
      else
        match others with
        | [] => (stream, .ok none)
        | outer :: rest =>
            let content := .ofElement top.close :: outer.content
            ({ stream with stack := { outer with content } :: rest }, .ok none)

/-- Handle an event.  The stream is left as the event leaves it, also where the
event fails. -/
def handle (graph : Graph) (settings : Settings) (stream : Stream)
    (event : Event) : Stream × Except Error (Option Emitted) :=
  if stream.phase = .finished then
    (stream, .error (.markup .afterDocument))
  else
    match event with
    | .start name attributes => stream.start graph settings name attributes
    | .text value => stream.text value
    | .finish => stream.finish graph settings

/-- Check that a complete document has been read. -/
def check (stream : Stream) : Except Error Unit :=
  match stream.phase with
  | .finished => .ok ()
  | .building => .error (.unterminated stream.stack.length)
  | .beforeRoot => .error (.markup .noRootElement)

/-- Handle events up to the first that fails. -/
def handleAll (graph : Graph) (settings : Settings) :
    Stream → List Event → Stream × List Emitted × Option Error
  | stream, [] => (stream, [], none)
  | stream, event :: rest =>
      match stream.handle graph settings event with
      | (stream, .error error) => (stream, [], some error)
      | (stream, .ok emitted) =>
          let (stream, later, error) := handleAll graph settings stream rest
          (stream, emitted.toList ++ later, error)

mutual

/-- The events of an item of content. -/
def eventsOf : Content → List Event
  | .text value => [.text value]
  | .element name attributes content =>
      .start name attributes :: (eventsOfList content ++ [.finish])

/-- The events of items of content. -/
def eventsOfList : List Content → List Event
  | [] => []
  | item :: items => eventsOf item ++ eventsOfList items

end

/-- Handle the events of an element up to the first that fails. -/
def replay (graph : Graph) (settings : Settings) (stream : Stream)
    (element : Element) : Stream × List Emitted × Option Error :=
  stream.handleAll graph settings (eventsOf (.ofElement element))

/-- Transcode a document from its bytes.  The result holds the values in front
of the first error. -/
def transcode (graph : Graph) (settings : Settings) (depth : EmitDepth)
    (bytes : List UInt8) : List Emitted × Option Error :=
  let (events, fault) := Event.read bytes
  match ({ depth } : Stream).handleAll graph settings events with
  | (_, emitted, some error) => (emitted, some error)
  | (stream, emitted, none) =>
      match fault, stream.check with
      | some fault, _ => (emitted, some (.markup fault))
      | none, .error error => (emitted, some error)
      | none, .ok () => (emitted, none)

/-- Split a document element into the values of its children. -/
def split (graph : Graph) (settings : Settings) (element : Element) :
    Except Error (List Emitted) := do
  match ({ depth := .children } : Stream).replay graph settings element with
  | (_, _, some error) => throw error
  | (stream, emitted, none) =>
      stream.check
      return emitted

end Stream

end XmlRecords
