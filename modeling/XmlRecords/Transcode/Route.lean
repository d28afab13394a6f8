import XmlRecords.Graph.Basic

/-!
# Routes

A child element goes to the field of a record that its name leads to: the first
field for an element of that name; or else the first repeated group whose
records lead to a field for it, directly or through groups of their own; or else
the wildcard.
-/

namespace XmlRecords

/-- The way of a child element into a record.  `group` goes on in the records of
a repeated group. -/
inductive Route where
  | field (index : Nat)
  | group (index : Nat) (item : Record) (rest : Route)
  | wildcard (index : Nat)
  deriving DecidableEq, Repr

namespace Route

/-- The place of the field of a record that a route begins with. -/
def index : Route → Nat
  | .field index | .group index _ _ | .wildcard index => index

end Route

namespace Graph

/-- The record of the rounds of a repeated group, if a field is for one. -/
def groupItem? (graph : Graph) (field : Field) : Option Record :=
  if field.origin = .group then graph.record? (graph.elementType field.node)
  else none

/-- The first repeated group among fields, counted from a place on, through
which a name leads on.  `next` follows the name in the records of a group. -/
def groupRoute? (graph : Graph) (next : Record → Option Route) :
    Nat → List Field → Option Route
  | _, [] => none
  | place, field :: rest =>
      match graph.groupItem? field with
      | none => graph.groupRoute? next (place + 1) rest
      | some item =>
          match next item with
          | some route => some (.group place item route)
          | none => graph.groupRoute? next (place + 1) rest

/-- Follow a name to a field through a bounded number of groups. -/
def namedRoute? (graph : Graph) (name : QName) : Nat → Record → Option Route
  | 0, _ => none
  | fuel + 1, record =>
      match record.elementField? name with
      | some index => some (.field index)
      | none =>
          graph.groupRoute? (graph.namedRoute? name fuel) 0 record.fields

/-- The route of a child element with a name into a record.  Groups do not
contain themselves, so there are fewer of them on the way than nodes. -/
def route? (graph : Graph) (record : Record) (name : QName) : Option Route :=
  (graph.namedRoute? name (graph.nodes.size + 1) record).or
    (record.elementWildcard.map .wildcard)

end Graph

end XmlRecords
