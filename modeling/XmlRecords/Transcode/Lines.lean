import XmlRecords.Json.Printer
import XmlRecords.Transcode.Stream
import XmlRecords.Value.Json
import XmlRecords.Xml.Document

/-!
# Documents as lines

Every value that a document yields is a line of JSON.  A document can be read as
a whole first, and then yields all of its values or none; or it can be read as a
stream of events, and then it yields the values in front of its first error.
-/

namespace XmlRecords

/-- The JSON text of a value. -/
def Emitted.json (graph : Graph) (emitted : Emitted) : String :=
  (emitted.value.toJson graph emitted.node).compact

/-- The line of a value. -/
def Emitted.line (graph : Graph) (emitted : Emitted) : String :=
  emitted.json graph ++ "\n"

/-- What documents are transcoded with: a schema, settings, and which elements
become values. -/
structure Conversion where
  graph : Graph
  settings : Settings := {}
  depth : EmitDepth := .root

namespace Conversion

/-- Write values as lines. -/
def lines (conversion : Conversion) (emitted : List Emitted) : String :=
  String.join (emitted.map (Emitted.line conversion.graph))

/-- The values of a document element. -/
def ofElement (conversion : Conversion) (element : Element) :
    Except Error (List Emitted) :=
  match conversion.depth with
  | .children => Stream.split conversion.graph conversion.settings element
  | .root => do
      let node ← conversion.graph.rootNode
      return [⟨node,
        ← conversion.graph.transcodeDocument conversion.settings element⟩]

/-- The values of a document that is read as a whole. -/
def ofText (conversion : Conversion) (text : String) :
    Except Error (List Emitted) := do
  conversion.ofElement (← Xml.readElement conversion.settings.maxDepth text)

/-- The values of a document that is read as a stream, and the error behind
them. -/
def ofBytes (conversion : Conversion) (bytes : List UInt8) :
    List Emitted × Option Error :=
  Stream.transcode conversion.graph conversion.settings conversion.depth bytes

end Conversion

end XmlRecords
