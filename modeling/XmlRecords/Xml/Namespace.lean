import XmlRecords.Xml.Element
import XmlRecords.Xml.Scan

/-!
# Namespaces

Each element has a scope: the namespaces that labels are bound to, the empty
label being that of the default namespace.  Two labels are reserved.  `xml` is
bound to its namespace for attributes without any declaration, and `xmlns` is
for declarations.
-/

namespace XmlRecords.Xml

/-- The bindings of labels to namespaces, the innermost first. -/
abbrev Scope := List (String × String)

/-- An attribute before its name is resolved. -/
structure RawAttribute where
  name : Label
  value : String
  deriving DecidableEq, Repr

/-- The binding that an attribute declares.  The reserved label may be declared
again, to no effect, and the reserved namespaces belong to no other label. -/
def binding? (a : RawAttribute) : Except MarkupDefect (Option (String × String)) :=
  if a.name.label = "xmlns" then
    if a.value = declarationNamespace then .error .reservedNamespace
    else if a.name.base = "xml" then
      if a.value = xmlNamespace then .ok none else .error .reservedNamespace
    else if a.value = xmlNamespace then .error .reservedNamespace
    else .ok (some (a.name.base, a.value))
  else if a.name.base = "xmlns" then
    if a.value = xmlNamespace || a.value = declarationNamespace then
      .error .reservedNamespace
    else .ok (some ("", a.value))
  else .ok none

/-- Recognise the attributes that declare namespaces. -/
def RawAttribute.isDeclaration (a : RawAttribute) : Bool :=
  a.name.label = "xmlns" || a.name.base = "xmlns"

/-- The bindings that the attributes of one element declare, the first
first.  A label is declared once. -/
def declaredScope : Scope → List RawAttribute → Except MarkupDefect Scope
  | done, [] => .ok done
  | done, a :: rest => do
      match ← binding? a with
      | none => declaredScope done rest
      | some (label, ns) =>
          if label != "" && (done.lookup label).isSome then
            throw .repeatedAttribute
          else declaredScope (done ++ [(label, ns)]) rest

/-- The name of an element in a scope. -/
def resolveElement (scope : Scope) (name : Label) : Except MarkupDefect QName :=
  match scope.lookup name.label with
  | some ns => .ok ⟨name.base, some ns⟩
  | none =>
      if name.label = "" then .ok ⟨name.base, none⟩
      else .error (.undeclaredNamespace name.label)

/-- The name of an attribute in a scope.  The default namespace is not for
attributes. -/
def resolveAttribute (scope : Scope) (name : Label) :
    Except MarkupDefect QName :=
  if name.label = "xml" then .ok ⟨name.base, some xmlNamespace⟩
  else if name.label = "" then .ok ⟨name.base, none⟩
  else
    match scope.lookup name.label with
    | some ns => .ok ⟨name.base, some ns⟩
    | none => .error (.undeclaredNamespace name.label)

/-- Resolve the attributes of an element, onto those resolved so far in reverse.
No two have the same name. -/
def resolveAttributes (scope : Scope) : List Attribute → List RawAttribute →
    Except MarkupDefect (List Attribute)
  | done, [] => .ok done.reverse
  | done, a :: rest => do
      let name ← resolveAttribute scope a.name
      if done.any (·.name == name) then throw .repeatedAttribute
      else resolveAttributes scope (⟨name, a.value⟩ :: done) rest

end XmlRecords.Xml
