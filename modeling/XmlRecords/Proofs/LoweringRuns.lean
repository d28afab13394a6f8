import Mathlib.Data.Finset.Card
import XmlRecords.Proofs.Plan
import XmlRecords.Proofs.Runs

/-!
# Runs of lowering

Lowering follows references from type to type, and types may refer to each other in
circles.  The relations here say what each step leads to, and which types are entered
and left on the way, without any bound on the number of steps: that a run exists says
that it ends.  Every run ends, in one way only, and what `Graph.ofComponents` computes
is how it ends.

A type that is entered is open until it is left.  A type with a name leads back to its
record from then on; one without a name leads back only while it is open.  So the types
that are closed become fewer with each type that is entered, and a type that is left
leaves no more of them closed than there were before.
-/

namespace XmlRecords

namespace Lowering

variable {α β : Type} {components : Components}

/-- What happens to types on the way: one is entered or left. -/
inductive Visit where
  | enter (id : Nat)
  | leave (id : Nat)
  deriving DecidableEq, Repr

/-- How a computation ends. -/
abbrev Ending (α : Type) := Except Error (α × Builder)

/-- Go on with another computation unless one has failed. -/
def Ending.andThen (ending : Ending α) (next : α → Build β) : Ending β :=
  ending.bind fun (x, b) => (next x).run b

/-- A record that is complete: the type is no longer open. -/
def finishType (id : Nat) (type : ComplexType) (node : Nat) (fields : Fields) :
    Build Nat := do
  closeType id type
  setFields node fields
  return node

/-- The fields that come after the content of a type. -/
def addRest (type : ComplexType) (fields : Fields) : Build Fields := do
  let fields ← addAttributes fields type.attributes
  addAttributeWildcard fields type

/-- The record for the rounds of a group, which has no fields yet. -/
def beginGroup (compositor : Compositor) : Build Nat := do
  let name ← newGroupName
  addNode (.record (.empty (some name) (.group compositor)))

/-- The field for the rounds of a group, once their record is complete. -/
def finishGroup (fields : Fields) (item : Nat) (inner : Fields) : Build Fields := do
  setFields item inner
  let node ← addNode (.array item)
  return fields.push groupField .group node

/-- The field for an element, once the node of its type is there. -/
def finishElement (optional : Bool) (fields : Fields) (occurs : Occurs)
    (declaration : ElementDecl) (node : Nat) : Build Fields := do
  let node ← occurrenceNode occurs.isRepeated (occurs.least == 0 || optional) node
  return fields.push declaration.name.name (.element declaration.name) node

/-- The field for elements that are not declared. -/
def addWildcard (fields : Fields) : Build Fields := do
  let node ← mapNode
  return fields.push wildcardField .elementWildcard node

/-- What is done on the way: to make the node of a type, or to add the fields of a type,
of a particle or of several particles. -/
inductive Task where
  | node (ref : TypeRef)
  | type (type : ComplexType)
  | particle (optional : Bool) (fields : Fields) (particle : Particle)
  | particles (optional : Bool) (fields : Fields) (particles : List Particle)

/-- What comes of a task: a node, or fields. -/
abbrev Task.Result : Task → Type
  | .node _ => Nat
  | .type _ | .particle .. | .particles .. => Fields

/-- A task is done in a number of steps, between two builders unless it fails, with
visits to types on the way. -/
inductive Runs (components : Components) :
    (task : Task) → Builder → List Visit → Ending task.Result → Prop where
  | simple (datatype : Datatype) (b : Builder) :
      Runs components (.node (.simple datatype)) b [] ((datatypeNode datatype).run b)
  | known {id node : Nat} {b : Builder}
      (opened : openRecord? b id (components.typeAt id) = some node) :
      Runs components (.node (.complex id)) b [] (.ok (node, b))
  | entered {id node : Nat} {b c d : Builder} {fields : Fields} {visits : List Visit}
      (closed : openRecord? b id (components.typeAt id) = none)
      (begun : (beginType id (components.typeAt id)).run b = .ok (node, c))
      (filled : Runs components (.type (components.typeAt id)) c visits (.ok (fields, d))) :
      Runs components (.node (.complex id)) b (.enter id :: (visits ++ [.leave id]))
        ((finishType id (components.typeAt id) node fields).run d)
  | stuck {id node : Nat} {b c : Builder} {e : Error} {visits : List Visit}
      (closed : openRecord? b id (components.typeAt id) = none)
      (begun : (beginType id (components.typeAt id)).run b = .ok (node, c))
      (filled : Runs components (.type (components.typeAt id)) c visits (.error e)) :
      Runs components (.node (.complex id)) b (.enter id :: visits) (.error e)
  | empty {type : ComplexType} (b : Builder) (empty : type.content = none) :
      Runs components (.type type) b []
        (Ending.andThen ((textFields type).run b) (addRest type))
  | content {type : ComplexType} {content : Particle} {fields : Fields} {b c : Builder}
      {visits : List Visit} {ending : Ending Fields}
      (present : type.content = some content)
      (text : (textFields type).run b = .ok (fields, c))
      (filled : Runs components (.particle false fields content) c visits ending) :
      Runs components (.type type) b visits (ending.andThen (addRest type))
  | prohibited {optional : Bool} {particle : Particle} (fields : Fields) (b : Builder)
      (never : particle.occurs.isProhibited) :
      Runs components (.particle optional fields particle) b [] (.ok (fields, b))
  | element {optional : Bool} {fields : Fields} {occurs : Occurs}
      {declaration : ElementDecl} {b : Builder} {visits : List Visit}
      {ending : Ending Nat} (may : ¬ occurs.isProhibited)
      (made : Runs components (.node declaration.type) b visits ending) :
      Runs components (.particle optional fields (.element occurs declaration)) b visits
        (ending.andThen (finishElement optional fields occurs declaration))
  | repeated {optional : Bool} {fields : Fields} {occurs : Occurs}
      {compositor : Compositor} {particles : List Particle} {item : Nat}
      {b c : Builder} {visits : List Visit} {ending : Ending Fields}
      (may : ¬ occurs.isProhibited) (often : occurs.isRepeated)
      (begun : (beginGroup compositor).run b = .ok (item, c))
      (filled : Runs components (.particles (compositor == .choice) {} particles) c visits
        ending) :
      Runs components (.particle optional fields (.group occurs compositor particles)) b
        visits (ending.andThen (finishGroup fields item))
  | group {optional : Bool} {fields : Fields} {occurs : Occurs}
      {compositor : Compositor} {particles : List Particle} {b : Builder}
      {visits : List Visit} {ending : Ending Fields}
      (may : ¬ occurs.isProhibited) (once : ¬ occurs.isRepeated)
      (filled : Runs components
        (.particles (optional || occurs.least == 0 || compositor == .choice) fields
          particles) b visits ending) :
      Runs components (.particle optional fields (.group occurs compositor particles)) b
        visits ending
  | wildcard {optional : Bool} {occurs : Occurs} (fields : Fields) (b : Builder)
      (may : ¬ occurs.isProhibited) :
      Runs components (.particle optional fields (.wildcard occurs)) b []
        ((addWildcard fields).run b)
  | unsupported {optional : Bool} {occurs : Occurs} {tag : String} (fields : Fields)
      (b : Builder) (may : ¬ occurs.isProhibited) :
      Runs components (.particle optional fields (.unsupported occurs tag)) b []
        (.error (.schema (.unsupportedTerm tag)))
  | nil {optional : Bool} (fields : Fields) (b : Builder) :
      Runs components (.particles optional fields []) b [] (.ok (fields, b))
  | cons {optional : Bool} {fields between : Fields} {particle : Particle}
      {rest : List Particle} {b c : Builder} {visits more : List Visit}
      {ending : Ending Fields}
      (first : Runs components (.particle optional fields particle) b visits
        (.ok (between, c)))
      (further : Runs components (.particles optional between rest) c more ending) :
      Runs components (.particles optional fields (particle :: rest)) b (visits ++ more)
        ending
  | failed {optional : Bool} {fields : Fields} {particle : Particle}
      {rest : List Particle} {b : Builder} {visits : List Visit} {e : Error}
      (first : Runs components (.particle optional fields particle) b visits (.error e)) :
      Runs components (.particles optional fields (particle :: rest)) b visits (.error e)

/-- A root of a document, which is one of several that it may have. -/
def alternative (root : ElementDecl) : Particle := .element ⟨0, some 1⟩ root

/-- The record for the choice of a document element. -/
def finishDocument (fields : Fields) : Build Nat :=
  addNode (.record ((Record.empty (some (.unqualified documentRecord))
    .document).withFields fields.fields))

/-- The graph of a builder with the root that was made last. -/
def finishGraph (made : Nat × Builder) : Graph :=
  { made.2.graph with root := some made.1 }

/-- Build the record schema of components: for a single root the node of its type,
otherwise a record with an optional field for each root. -/
inductive Lowers (components : Components) (wanted : Option String) :
    List Visit → Except Error Graph → Prop where
  | refused {e : Error} (chosen : chosenRoots components wanted = .error e) :
      Lowers components wanted [] (.error e)
  | single {root : ElementDecl} {visits : List Visit} {ending : Ending Nat}
      (chosen : chosenRoots components wanted = .ok [root])
      (made : Runs components (.node root.type) {} visits ending) :
      Lowers components wanted visits (ending.map finishGraph)
  | several {roots : List ElementDecl} {visits : List Visit} {ending : Ending Fields}
      (chosen : chosenRoots components wanted = .ok roots) (several : roots.length ≠ 1)
      (filled : Runs components (.particles false {} (roots.map alternative)) {} visits
        ending) :
      Lowers components wanted visits ((ending.andThen finishDocument).map finishGraph)

section Determinism

/-- A task is done in one way only. -/
theorem Runs.unique {task : Task} {b : Builder} {visits others : List Visit}
    {ending other : Ending task.Result} (one : Runs components task b visits ending)
    (two : Runs components task b others other) : visits = others ∧ ending = other := by
  induction one generalizing others with
  | simple datatype =>
      cases two
      exact ⟨rfl, rfl⟩
  | known opened =>
      cases two with
      | known opened' =>
          cases opened.symm.trans opened'
          exact ⟨rfl, rfl⟩
      | entered closed | stuck closed => cases opened.symm.trans closed
  | entered closed begun filled ih =>
      cases two with
      | known opened => cases closed.symm.trans opened
      | entered _ begun' filled' =>
          cases begun.symm.trans begun'
          obtain ⟨rfl, same⟩ := ih filled'
          cases same
          exact ⟨rfl, rfl⟩
      | stuck _ begun' filled' =>
          cases begun.symm.trans begun'
          cases (ih filled').2
  | stuck closed begun filled ih =>
      cases two with
      | known opened => cases closed.symm.trans opened
      | entered _ begun' filled' =>
          cases begun.symm.trans begun'
          cases (ih filled').2
      | stuck _ begun' filled' =>
          cases begun.symm.trans begun'
          obtain ⟨rfl, same⟩ := ih filled'
          cases same
          exact ⟨rfl, rfl⟩
  | empty b empty =>
      cases two with
      | empty => exact ⟨rfl, rfl⟩
      | content present => cases empty.symm.trans present
  | content present text filled ih =>
      cases two with
      | empty b empty => cases empty.symm.trans present
      | content present' text' filled' =>
          cases present.symm.trans present'
          cases text.symm.trans text'
          obtain ⟨rfl, rfl⟩ := ih filled'
          exact ⟨rfl, rfl⟩
  | prohibited fields b never =>
      cases two with
      | prohibited => exact ⟨rfl, rfl⟩
      | element may | repeated may | group may | wildcard _ _ may
      | unsupported _ _ may => exact absurd never may
  | element may made ih =>
      cases two with
      | prohibited _ _ never => exact absurd never may
      | element _ made' =>
          obtain ⟨rfl, rfl⟩ := ih made'
          exact ⟨rfl, rfl⟩
  | repeated may often begun filled ih =>
      cases two with
      | prohibited _ _ never => exact absurd never may
      | repeated _ _ begun' filled' =>
          cases begun.symm.trans begun'
          obtain ⟨rfl, rfl⟩ := ih filled'
          exact ⟨rfl, rfl⟩
      | group _ once => exact absurd often once
  | group may once filled ih =>
      cases two with
      | prohibited _ _ never => exact absurd never may
      | repeated _ often => exact absurd often once
      | group _ _ filled' => exact ih filled'
  | wildcard fields b may =>
      cases two with
      | prohibited _ _ never => exact absurd never may
      | wildcard => exact ⟨rfl, rfl⟩
  | unsupported fields b may =>
      cases two with
      | prohibited _ _ never => exact absurd never may
      | unsupported => exact ⟨rfl, rfl⟩
  | nil =>
      cases two
      exact ⟨rfl, rfl⟩
  | cons first further ih₁ ih₂ =>
      cases two with
      | cons first' further' =>
          obtain ⟨rfl, same⟩ := ih₁ first'
          cases same
          obtain ⟨rfl, rfl⟩ := ih₂ further'
          exact ⟨rfl, rfl⟩
      | failed first' => cases (ih₁ first').2
  | failed first ih =>
      cases two with
      | cons first' => cases (ih first').2
      | failed first' =>
          obtain ⟨rfl, same⟩ := ih first'
          cases same
          exact ⟨rfl, rfl⟩

theorem Lowers.unique {wanted : Option String} {visits others : List Visit}
    {ending other : Except Error Graph} (one : Lowers components wanted visits ending)
    (two : Lowers components wanted others other) :
    visits = others ∧ ending = other := by
  cases one with
  | refused chosen =>
      cases two with
      | refused chosen' =>
          cases chosen.symm.trans chosen'
          exact ⟨rfl, rfl⟩
      | single chosen' | several chosen' => cases chosen.symm.trans chosen'
  | single chosen made =>
      cases two with
      | refused chosen' => cases chosen.symm.trans chosen'
      | single chosen' made' =>
          cases chosen.symm.trans chosen'
          obtain ⟨rfl, rfl⟩ := made.unique made'
          exact ⟨rfl, rfl⟩
      | several chosen' several =>
          cases chosen.symm.trans chosen'
          exact absurd rfl several
  | several chosen several filled =>
      cases two with
      | refused chosen' => cases chosen.symm.trans chosen'
      | single chosen' =>
          cases chosen.symm.trans chosen'
          exact absurd rfl several
      | several chosen' _ filled' =>
          cases chosen.symm.trans chosen'
          obtain ⟨rfl, rfl⟩ := filled.unique filled'
          exact ⟨rfl, rfl⟩

end Determinism

end Lowering

end XmlRecords
