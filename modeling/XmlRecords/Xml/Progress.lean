import XmlRecords.Xml.Tree

/-!
# Documents on their way

While a document is read, its open elements are kept, the innermost first, and
each with its latest item first.  Text between two pieces of markup is one run;
comments and processing instructions end a run and character sections do not.

The document element may end inside of an entity.  The content that follows has
to be right as well, but it belongs to nothing.

Attributes may come without an element of their own, from a start tag that is
cut off.  They wait for the next tag.  A start tag takes them in front of its
own attributes, and at an end tag they are lost.

In literal text every line end becomes a line feed.
-/

namespace XmlRecords.Xml

/-- Put a literal character behind characters in reverse.  A carriage return
waits for what follows it, unless nothing does. -/
def pushLiteral (c : Char) (last : Bool) (buffer : List Char) : List Char :=
  let isFinalReturn := last && c == '\r'
  match buffer with
  | '\r' :: front =>
      if isFinalReturn then '\n' :: '\n' :: front
      else if c == '\n' then '\n' :: front
      else c :: '\n' :: front
  | _ => if isFinalReturn then '\n' :: buffer else c :: buffer

/-- Put literal characters behind characters in reverse. -/
def pushLiterals : List Char → List Char → List Char
  | buffer, [] => buffer
  | buffer, c :: rest => pushLiterals (pushLiteral c rest.isEmpty buffer) rest

/-- An element whose end has not been reached, with its latest item first. -/
structure Open where
  label : Label
  name : QName
  attributes : List Attribute
  scope : Scope
  content : List Tree

/-- The open elements, the innermost first; the document element once it is
complete; whether the latest item is a run that goes on; the number of
references inside the entity at hand; and the attributes that wait for a tag. -/
structure Progress where
  opened : List Open := []
  root : Option Tree := none
  running : Bool := false
  references : Nat := 0
  waiting : List RawAttribute := []

namespace Progress

/-- End the run at hand. -/
def endRun (p : Progress) : Progress := { p with running := false }

/-- Add text to the run at hand or begin one.  Behind the document element there
is nothing to add it to. -/
def addText (p : Progress) (text : String) : Progress :=
  match p.opened with
  | [] => p
  | top :: others =>
      let content :=
        match p.running, top.content with
        | true, .text run :: rest => .text (run ++ text) :: rest
        | _, content => .text text :: content
      { p with opened := { top with content } :: others, running := true }

/-- Add the text of a buffer in reverse, if there is any. -/
def addBuffer (p : Progress) (buffer : List Char) : Progress :=
  if buffer.isEmpty then p else p.addText (String.ofList buffer.reverse)

/-- Add a complete element.  The first one outside of all others is the document
element. -/
def addElement (p : Progress) (element : Tree) : Progress :=
  match p.opened with
  | [] => { p with root := some (p.root.getD element) }
  | top :: others =>
      { p with opened := { top with content := element :: top.content } :: others }

/-- The scope of the innermost open element. -/
def scope (p : Progress) : Scope :=
  match p.opened with
  | [] => []
  | top :: _ => top.scope

/-- Let attributes wait for the next tag, behind those that wait already. -/
def await (p : Progress) (raw : List RawAttribute) : Progress :=
  { p.endRun with waiting := p.waiting ++ raw }

/-- The scope that the attributes that wait declare in the innermost open
element, and those of them that declare nothing. -/
def resolveWaiting (p : Progress) :
    Except MarkupDefect (Scope × List Attribute) := do
  let scope := (← declaredScope [] p.waiting) ++ p.scope
  let others := p.waiting.filter (!·.isDeclaration)
  return (scope, ← resolveAttributes scope [] others)

/-- Begin an element with the attributes that wait. -/
def openElement (p : Progress) (label : Label) :
    Except MarkupDefect Progress := do
  let (scope, attributes) ← p.resolveWaiting
  let name ← resolveElement scope label
  return { p.endRun with
    opened := ⟨label, name, attributes, scope, []⟩ :: p.opened
    waiting := [] }

/-- End the innermost open element.  The attributes that wait are lost, but they
have to be right. -/
def closeElement (p : Progress) : Except MarkupDefect Progress :=
  match p.opened with
  | [] => .error .mismatchedTag
  | top :: others => do
      let _ ← p.resolveWaiting
      return ({ p with opened := others, waiting := [] }.endRun).addElement
        (.element top.name top.attributes top.scope top.content.reverse)

end Progress

end XmlRecords.Xml
