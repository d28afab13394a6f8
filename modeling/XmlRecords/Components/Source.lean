import XmlRecords.Files.Host
import XmlRecords.Files.Path
import XmlRecords.Xml.Document

/-!
# Schema documents

A schema is spread over documents that include and import each other.  They are
collected from an entry document on in the order in which they are mentioned,
each file once, by whatever spelling of its path it is mentioned first.

A document without a target namespace of its own has that of the document by
which it was first included.
-/

namespace XmlRecords

namespace Xml.ScopedElement

/-- The value of the attribute with a name in no namespace. -/
def attribute? (node : ScopedElement) (name : String) : Option String :=
  (node.attributes.find? fun a => a.name == .unqualified name).map (·.value)

/-- The child elements of the schema language, except for annotations. -/
def components (node : ScopedElement) : List ScopedElement :=
  (node.content.filterMap Tree.element?).filter fun child =>
    child.name.ns == some schemaNamespace && child.name.name != "annotation"

/-- The first child element of the schema language with a name. -/
def component? (node : ScopedElement) (name : String) : Option ScopedElement :=
  node.components.find? fun child => child.name.name == name

end Xml.ScopedElement

/-- A schema document, the path it was read from, and the namespace of the
document that includes it. -/
structure Source where
  path : String
  root : Xml.ScopedElement
  inherited : Option String

namespace Source

/-- Read the text of a schema document. -/
def ofText (path text : String) (inherited : Option String) :
    Except Error Source :=
  match Xml.readTree false text with
  | .error defect => .error (.load path (.malformed defect))
  | .ok tree =>
      match tree.element? with
      | some root => .ok ⟨path, root, inherited⟩
      | none => .error (.load path (.malformed .noElement))

/-- The namespace that a document declares, or else the inherited one. -/
def targetNamespace (source : Source) : Option String :=
  (source.root.attribute? "targetNamespace").or source.inherited

/-- Decide whether a text occurs in another one. -/
def isRemote (location : String) : Bool :=
  Xml.occursIn "://" location.toList

/-- The directory that a document's mentions of others start from. -/
def directory (base : Option String) (source : Source) : String :=
  base.getD ((Path.parent? source.path).getD "")

/-- The documents that a document mentions: their paths and the namespaces that
they inherit.  Remote documents are passed over, and an imported document
inherits nothing. -/
def mentions (base : Option String) (source : Source) :
    List (String × Option String) :=
  source.root.components.filterMap fun child =>
    let kind := child.name.name
    if kind = "include" || kind = "import" || kind = "redefine" then
      match child.attribute? "schemaLocation" with
      | none => none
      | some location =>
          if isRemote location then none
          else
            some (Path.join (source.directory base) location,
              if kind = "import" then none else source.targetNamespace)
    else none

/-- Read the schema document at a path. -/
def ofFile {m : Type → Type} [Monad m] (host : Host m) (path : String)
    (inherited : Option String) : m (Except Error Source) := do
  match ← host.readText path with
  | .error fault => return .error (.load path (.unreadable fault))
  | .ok text => return ofText path text inherited

/-- The first of some mentions whose file is new, with that file, and the
mentions behind it.  `seen` holds the files met so far. -/
def nextNew {m : Type → Type} [Monad m] (host : Host m) (seen : List String) :
    List (String × Option String) →
      m (Option (String × (String × Option String) ×
        List (String × Option String)))
  | [] => return none
  | mention :: queue => do
      let key ← host.canonical mention.1
      if seen.contains key then nextNew host seen queue
      else return some (key, mention, queue)

/-- Collect the documents mentioned in a queue and all they mention, onto those
collected so far in reverse.  Each step reads one new file, or is the last. -/
def collectFrom {m : Type → Type} [Monad m] (host : Host m)
    (base : Option String) :
    Nat → List String → List Source → List (String × Option String) →
      m (Except Error (List Source))
  | 0, _, done, [] => return .ok done.reverse
  | 0, _, _, (path, _) :: _ => return .error (.load path .tooManyFiles)
  | fuel + 1, seen, done, queue => do
      match ← nextNew host seen queue with
      | none => return .ok done.reverse
      | some (key, (path, inherited), queue) =>
          match ← ofFile host path inherited with
          | .error error => return .error error
          | .ok source =>
              collectFrom host base fuel (key :: seen) (source :: done)
                (queue ++ source.mentions base)

/-- Collect the document at a path and all that it leads to.  Mentions start
from a base directory if there is one, and from the directory of the mentioning
document if there is not.  The step behind the last file finds nothing new. -/
def collect {m : Type → Type} [Monad m] (host : Host m) (path : String)
    (base : Option String) : m (Except Error (List Source)) := do
  collectFrom host base ((← host.mostFiles) + 1) [] [] [(path, none)]

end Source

end XmlRecords
