import XmlRecords.Xml.Token

/-!
# Events

A document as a stream of events.  The pieces of text between two tags are one
event, whatever else stands between them, and are left out if together they are
nothing but white space.
-/

namespace XmlRecords

/-- An event. -/
inductive Event where
  | start (name : QName) (attributes : List Attribute)
  | text (value : String)
  | finish
  deriving Inhabited, Repr

namespace Event

/-- Report the text at hand, unless it is all white space. -/
def ofText (pending : String) : List Event :=
  if Text.isAllBlank pending then [] else [.text pending]

/-- The events of tokens behind the text at hand.  What is left at the end is
reported if the document is complete. -/
def coalesce (complete : Bool) (pending : String) : List Token → List Event
  | [] => if complete then ofText pending else []
  | .text value :: rest => coalesce complete (pending ++ value) rest
  | .aside :: rest => coalesce complete pending rest
  | .start name attributes :: rest =>
      ofText pending ++ .start name attributes :: coalesce complete "" rest
  | .finish :: rest => ofText pending ++ .finish :: coalesce complete "" rest

/-- Read all events of a document up to its end or its first fault.  Text that
has not been reported at a fault is lost. -/
def read (bytes : List UInt8) : List Event × Option MarkupFault :=
  let (tokens, fault) := Token.read bytes
  (coalesce fault.isNone "" tokens, fault)

end Event

end XmlRecords
