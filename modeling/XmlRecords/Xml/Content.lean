import XmlRecords.Xml.Doctype
import XmlRecords.Xml.Progress

/-!
# Content of documents

Tags, attributes and text, as they are read onto a document on its way.  The
entities that a document declares are expanded wherever they are referred to, in
text as markup and in attributes as text.

A character that is written as a reference outside of entities is taken as it
is, and so is the literal character right behind it.

The text of an entity may end inside of a start tag, right behind its name or an
attribute.  Such a tag begins no element, and leaves its attributes to the next
tag.
-/

namespace XmlRecords.Xml

/-- How deep entities may refer to each other. -/
def maxEntityLevels : Nat := 10

/-- How many references the text of an entity may lead to. -/
def maxReferences : Nat := 255

/-- Count a reference, unless it stands outside of all entities. -/
def countReference (nested : Bool) (count : Nat) : Except MarkupDefect Nat :=
  if !nested then .ok 0
  else if count = maxReferences then .error .entityLoop
  else .ok (count + 1)

/-- Read the value of an attribute, its white space turned into blanks and its
references resolved, onto characters in reverse.  `enter` reads the text of an
entity; `count` is the number of references counted so far. -/
def readValueWith (entities : List Entity) (nested : Bool)
    (enter : Nat → List Char → List Char →
      Except MarkupDefect (List Char × Nat)) :
    Nat → Nat → List Char → List Char → Except MarkupDefect (List Char × Nat)
  | 0, _, _, _ => .error .unexpectedEnd
  | _ + 1, count, buffer, [] => .ok (buffer, count)
  | fuel + 1, count, buffer, '&' :: text =>
      match readReference? text with
      | none => .error .badReference
      | some (.char c, rest) =>
          if nested && c == '<' then .error .badAttribute
          else
            let c := if nested && isSpace c then ' ' else c
            readValueWith entities nested enter fuel count (c :: buffer) rest
      | some (.entity name, rest) =>
          match entityText? entities name with
          | none => .error (.undeclaredEntity (String.ofList name))
          | some text => do
              let (buffer, count) ←
                enter (← countReference nested count) buffer text
              readValueWith entities nested enter fuel count buffer rest
  | fuel + 1, count, buffer, c :: rest =>
      if c == '\r' && rest.head? == some '\n' then
        readValueWith entities nested enter fuel count buffer rest
      else
        readValueWith entities nested enter fuel count
          ((if isSpace c then ' ' else c) :: buffer) rest

/-- Read the value of an attribute while a number of levels of entities may
still be entered. -/
def readValue (entities : List Entity) :
    Nat → Nat → List Char → List Char → Except MarkupDefect (List Char × Nat)
  | 0, count, buffer, text =>
      readValueWith entities true (fun _ _ _ => .error .entityLoop)
        (text.length + 1) count buffer text
  | levels + 1, count, buffer, text =>
      readValueWith entities (levels + 1 < maxEntityLevels)
        (readValue entities levels) (text.length + 1) count buffer text

/-- How a start tag ends: as a start tag, as an end tag as well, or with the
text, before it is complete. -/
inductive TagEnd where
  | start
  | empty
  | cut
  deriving DecidableEq, Repr

/-- A start tag: its name, its attributes as they are written, and its end. -/
structure StartTag where
  label : Label
  attributes : List (Label × List Char)
  ending : TagEnd

/-- Read the attributes and the end of a start tag, onto the attributes read so
far in reverse.  White space is the beginning of more. -/
def readTagRest (label : Label) : Nat → List (Label × List Char) → List Char →
    Except MarkupDefect (StartTag × List Char)
  | 0, _, _ => .error .unexpectedEnd
  | _ + 1, attributes, [] => .ok (⟨label, attributes.reverse, .cut⟩, [])
  | fuel + 1, attributes, text =>
      match skipSpace text with
      | [] => .error .unexpectedEnd
      | '/' :: rest => do
          return (⟨label, attributes.reverse, .empty⟩, ← requireMark ">" rest)
      | '>' :: rest => .ok (⟨label, attributes.reverse, .start⟩, rest)
      | c :: rest =>
          if text.head? == some c then .error .badAttribute
          else do
            let (next, rest) ← readAttribute (c :: rest)
            readTagRest label fuel (next :: attributes) rest

/-- Read a start tag with a bounded number of attributes after its opening angle
bracket.  The label for declarations is for no element. -/
def readStartTag (fuel : Nat) (text : List Char) :
    Except MarkupDefect (StartTag × List Char) := do
  let (label, rest) ← readLabel text
  if label.label = "xmlns" then throw .reservedNamespace
  readTagRest label fuel [] rest

/-- Read an end tag after its opening mark. -/
def readEndTag (text : List Char) : Except MarkupDefect (Label × List Char) := do
  let (label, rest) ← readLabel text
  return (label, ← requireMark ">" (skipSpace rest))

/-- Read the values of attributes while a number of levels of entities may still
be entered. -/
def readValues (entities : List Entity) (levels : Nat) :
    Nat → List (Label × List Char) →
      Except MarkupDefect (List RawAttribute × Nat)
  | count, [] => .ok ([], count)
  | count, (label, text) :: rest => do
      let (value, count) ← readValue entities levels count [] text
      let (others, count) ← readValues entities levels count rest
      return (⟨label, String.ofList value.reverse⟩ :: others, count)

/-- Begin the element of a start tag, and end it if the tag is an end tag as
well.  A tag that is cut off begins no element. -/
def addTag (entities : List Entity) (levels : Nat) (p : Progress)
    (tag : StartTag) : Except MarkupDefect Progress := do
  let (raw, references) ← readValues entities levels p.references tag.attributes
  let p := ({ p with references } : Progress).await raw
  match tag.ending with
  | .start => p.openElement tag.label
  | .empty => (← p.openElement tag.label).closeElement
  | .cut => return p

/-- End the innermost open element by an end tag with its name. -/
def closeTag (p : Progress) (label : Label) : Except MarkupDefect Progress :=
  match p.opened with
  | [] => .error .mismatchedTag
  | top :: _ =>
      if top.label = label then p.closeElement else .error .mismatchedTag

/-- Read a run of text with references, onto characters in reverse.  `enter`
reads the text of an entity as content.  `exact` says that the next literal
character is taken as it is. -/
def readTextWith (entities : List Entity) (nested : Bool)
    (enter : Progress → List Char → Except MarkupDefect Progress) :
    Nat → Bool → List Char → Progress → List Char →
      Except MarkupDefect Progress
  | 0, _, _, _, _ => .error .unexpectedEnd
  | _ + 1, _, buffer, p, [] => .ok (p.addBuffer buffer)
  | fuel + 1, exact, buffer, p, '&' :: text =>
      match readReference? text with
      | none => .error .badReference
      | some (.char c, rest) =>
          if nested then
            readTextWith entities nested enter fuel exact
              (pushLiteral c rest.isEmpty buffer) p rest
          else readTextWith entities nested enter fuel true (c :: buffer) p rest
      | some (.entity name, rest) =>
          match entityText? entities name with
          | none => .error (.undeclaredEntity (String.ofList name))
          | some text => do
              let p := p.addBuffer buffer
              let references ← countReference nested p.references
              let p ← enter { p with references } text
              readTextWith entities nested enter fuel false [] p rest
  | fuel + 1, exact, buffer, p, c :: rest =>
      readTextWith entities nested enter fuel false
        (if exact then c :: buffer else pushLiteral c rest.isEmpty buffer) p rest

/-- Read content up to the end tag that belongs to none of its own elements, or
up to the end.  `level` counts the elements begun here, and `tagged` says that
there was one, as there has to be before any end tag in an entity. -/
def readContentWith (entities : List Entity) (levels : Nat)
    (enter : Progress → List Char → Except MarkupDefect Progress) :
    Nat → Nat → Bool → Progress → List Char →
      Except MarkupDefect (Progress × List Char)
  | 0, _, _, _, _ => .error .unexpectedEnd
  | _ + 1, _, _, p, [] => .ok (p, [])
  | fuel + 1, level, tagged, p, '<' :: text =>
      match after? "!--" text, after? "![CDATA[" text, text with
      | some rest, _, _ => do
          readContentWith entities levels enter fuel level tagged p.endRun
            (← skipComment rest)
      | none, some rest, _ => do
          let (value, rest) ← readUntil "]]>" [] rest
          let p := p.addText (String.ofList (pushLiterals [] value).reverse)
          readContentWith entities levels enter fuel level tagged p rest
      | none, none, '?' :: rest => do
          readContentWith entities levels enter fuel level tagged p.endRun
            (← skipInstruction rest)
      | none, none, '/' :: rest => do
          if !tagged then throw .mismatchedTag
          let (label, rest) ← readEndTag rest
          let p ← closeTag p label
          match level with
          | 0 => return (p, rest)
          | level + 1 =>
              readContentWith entities levels enter fuel level tagged p rest
      | none, none, _ => do
          let (tag, rest) ← readStartTag fuel text
          let p ← addTag entities levels p tag
          let level := if tag.ending = .start then level + 1 else level
          readContentWith entities levels enter fuel level true p rest
  | fuel + 1, level, tagged, p, text => do
      let run := text.takeWhile (· != '<')
      if occursIn "]]>" run then throw .badText
      if run.any (!isAllowed ·) then throw .forbiddenCharacter
      let p ← readTextWith entities (levels < maxEntityLevels) enter
        (run.length + 1) false [] p run
      readContentWith entities levels enter fuel level tagged p
        (text.dropWhile (· != '<'))

/-- Read the text of an entity as content while a number of levels of entities
may be entered, this one included. -/
def enterEntity (entities : List Entity) :
    Nat → Progress → List Char → Except MarkupDefect Progress
  | 0, _, _ => .error .entityLoop
  | levels + 1, p, text => do
      let (p, _) ← readContentWith entities levels (enterEntity entities levels)
        (text.length + 1) 0 false p text
      return p

end XmlRecords.Xml
