import XmlRecords.Error
import XmlRecords.Number.Integer
import XmlRecords.Text.Utf8
import XmlRecords.Xml.Characters
import XmlRecords.Xml.Element

/-!
# Tokens

A document as a sequence of tags, pieces of text and asides, read from its bytes
without building a tree.  A piece of text is a run of characters, a character
section or a reference; asides are comments, processing instructions and
document type declarations.

This reader asks for less than a well-formed document: tags have to match and
attributes to be well written and different, but it does not check the
characters of names, and a document may end with elements open.  A label without
a namespace stands for none.  Entities are only the predefined ones.
-/

namespace XmlRecords

/-- A token. -/
inductive Token where
  | start (name : QName) (attributes : List Attribute)
  | text (value : String)
  | aside
  | finish
  deriving DecidableEq, Inhabited, Repr

namespace Token

/-- The byte of an ASCII character. -/
def byte (c : Char) : UInt8 := UInt8.ofNat c.toNat

/-- Recognise the white space of markup. -/
def isSpace (b : UInt8) : Bool :=
  b == byte ' ' || b == byte '\t' || b == byte '\n' || b == byte '\r'

/-- The rest of bytes that begin with a mark. -/
def after? (mark : String) (bytes : List UInt8) : Option (List UInt8) :=
  let mark := Utf8.encode mark
  if mark.isPrefixOf bytes then some (bytes.drop mark.length) else none

/-- Split at the first occurrence of a mark, onto the bytes in front of it in
reverse. -/
def splitAtMark? (mark : String) :
    List UInt8 → List UInt8 → Option (List UInt8 × List UInt8)
  | _, [] => none
  | done, b :: rest =>
      match after? mark (b :: rest) with
      | some rest => some (done.reverse, rest)
      | none => splitAtMark? mark (b :: done) rest

/-- Split a tag off at the first closing angle bracket outside of quotation
marks. -/
def splitTag? : Option UInt8 → List UInt8 → List UInt8 →
    Option (List UInt8 × List UInt8)
  | _, _, [] => none
  | none, done, b :: rest =>
      if b == byte '>' then some (done.reverse, rest)
      else if b == byte '"' || b == byte '\x27' then
        splitTag? (some b) (b :: done) rest
      else splitTag? none (b :: done) rest
  | some quote, done, b :: rest =>
      splitTag? (if b == quote then none else some quote) (b :: done) rest

/-- Split a declaration off at the closing angle bracket that belongs to no
opening one in it. -/
def splitDeclaration? : Nat → List UInt8 → List UInt8 →
    Option (List UInt8 × List UInt8)
  | _, _, [] => none
  | depth, done, b :: rest =>
      if b == byte '<' then splitDeclaration? (depth + 1) (b :: done) rest
      else if b == byte '>' then
        match depth with
        | 0 => some (done.reverse, rest)
        | depth + 1 => splitDeclaration? depth (b :: done) rest
      else splitDeclaration? depth (b :: done) rest

/-- An attribute as it is written. -/
structure RawAttribute where
  key : List UInt8
  value : List UInt8
  deriving DecidableEq, Repr

/-- Read attributes onto those read so far in reverse.  No two have the same
key. -/
def readAttributes : Nat → List RawAttribute → List UInt8 →
    Option (List RawAttribute)
  | 0, _, _ => none
  | fuel + 1, done, bytes =>
      match bytes.dropWhile isSpace with
      | [] => some done.reverse
      | first :: rest =>
          let isEnd := fun b => b == byte '=' || isSpace b
          let key := first :: rest.takeWhile (!isEnd ·)
          match (rest.dropWhile (!isEnd ·)).dropWhile isSpace with
          | [] => none
          | equals :: rest =>
              if equals != byte '=' || done.any (·.key == key) then none
              else
                match rest.dropWhile isSpace with
                | [] => none
                | quote :: rest =>
                    if quote != byte '"' && quote != byte '\x27' then none
                    else
                      match rest.span (· != quote) with
                      | (_, []) => none
                      | (value, _ :: rest) =>
                          readAttributes fuel (⟨key, value⟩ :: done) rest

/-- The bindings of labels to namespaces, the latest first. -/
abbrev Bindings := List (List UInt8 × List UInt8)

/-- The labels that are bound without any declaration. -/
def initialBindings : Bindings :=
  [(Utf8.encode "xml", Utf8.encode xmlNamespace),
    (Utf8.encode "xmlns", Utf8.encode declarationNamespace)]

/-- The label that an attribute declares, the empty one for the default
namespace. -/
def declaredLabel? (key : List UInt8) : Option (List UInt8) :=
  if key = Utf8.encode "xmlns" then some []
  else after? "xmlns:" key

/-- Bind the label that an attribute declares.  The reserved labels and
namespaces belong to each other. -/
def bind? (bindings : Bindings) (a : RawAttribute) : Option Bindings :=
  match declaredLabel? a.key with
  | none => some bindings
  | some [] => some (([], a.value) :: bindings)
  | some label =>
      let isXml := a.value == Utf8.encode xmlNamespace
      if label = Utf8.encode "xml" then if isXml then some bindings else none
      else if label = Utf8.encode "xmlns" || isXml ||
          a.value == Utf8.encode declarationNamespace then none
      else some ((label, a.value) :: bindings)

/-- The namespace that a label is bound to, if it is bound to any. -/
def namespace? (bindings : Bindings) (label : List UInt8) : Option String :=
  match bindings.lookup label with
  | some (b :: rest) => some (Utf8.decodeLossy (b :: rest))
  | _ => none

/-- Resolve a name.  The default namespace is not for attributes. -/
def resolve (bindings : Bindings) (isAttribute : Bool) (name : List UInt8) :
    QName :=
  match name.span (· != byte ':') with
  | (base, []) =>
      ⟨Utf8.decodeLossy base,
        if isAttribute then none else namespace? bindings []⟩
  | ([], _ :: base) => ⟨Utf8.decodeLossy base, none⟩
  | (label, _ :: base) => ⟨Utf8.decodeLossy base, namespace? bindings label⟩

/-- The character with a number. -/
def charOfNumber? (number : Nat) : Option Char :=
  if h : number.isValidChar then some (Char.ofNatAux number h) else none

/-- Read the number of a character in a radix.  It may have a plus sign. -/
def numberedChar? (radix : Nat) (text : List Char) : Option Char :=
  match (Bounds.unsigned 32).read radix text with
  | .ok value => charOfNumber? value.toNat
  | .error _ => none

/-- The character that a reference in text stands for. -/
def textReference? (name : List Char) : Option Char :=
  match Xml.predefinedEntity? name with
  | some c => some c
  | none =>
      match name with
      | '#' :: 'x' :: digits | '#' :: 'X' :: digits => numberedChar? 16 digits
      | '#' :: digits => numberedChar? 10 digits
      | _ => none

/-- The character that a reference in an attribute stands for.  Its number has
no sign and is not zero. -/
def valueReference? (name : List Char) : Option Char :=
  match name with
  | '#' :: number =>
      let (radix, digits) : Nat × List Char :=
        match number with
        | 'x' :: digits => (16, digits)
        | _ => (10, number)
      if digits.head? == some '+' then none
      else (numberedChar? radix digits).filter (· != '\x00')
  | _ => Xml.predefinedEntity? name

/-- Resolve the references in the value of an attribute, onto the characters in
front of them in reverse. -/
def unescape? : Nat → List Char → List Char → Option (List Char)
  | 0, _, _ => none
  | _ + 1, done, [] => some done.reverse
  | fuel + 1, done, '&' :: rest =>
      match rest.span fun c => c != ';' && c != '&' with
      | (name, ';' :: rest) =>
          match valueReference? name with
          | some c => unescape? fuel (c :: done) rest
          | none => none
      | _ => none
  | fuel + 1, done, c :: rest => unescape? fuel (c :: done) rest

/-- Resolve an attribute. -/
def readAttribute? (bindings : Bindings) (a : RawAttribute) :
    Option Attribute := do
  let text ← Utf8.decode? a.value
  let value ← unescape? (text.length + 1) [] text.toList
  return ⟨resolve bindings true a.key, String.ofList value⟩

/-- An element that has begun: its name as it is written, and the bindings
around it. -/
structure Open where
  name : List UInt8
  outer : Bindings

/-- The tokens so far, the latest first, the bindings in force, and the open
elements, the innermost first. -/
structure Progress where
  tokens : List Token := []
  bindings : Bindings := initialBindings
  opened : List Open := []

namespace Progress

/-- Report a token. -/
def report (p : Progress) (token : Token) : Progress :=
  { p with tokens := token :: p.tokens }

/-- Begin an element. -/
def openTag? (p : Progress) (tag : List UInt8) : Option Progress := do
  let name := tag.takeWhile (!isSpace ·)
  let raw ← readAttributes (tag.length + 1) [] (tag.drop name.length)
  let bindings ← raw.foldlM bind? p.bindings
  let attributes ← (raw.filter fun a => (declaredLabel? a.key).isNone).mapM
    (readAttribute? bindings)
  return { p.report (.start (resolve bindings false name) attributes) with
    bindings
    opened := ⟨name, p.bindings⟩ :: p.opened }

/-- End the innermost element. -/
def closeTag? (p : Progress) (name : List UInt8) : Option Progress :=
  match p.opened with
  | [] => none
  | top :: others =>
      if top.name = name then
        some { p.report .finish with bindings := top.outer, opened := others }
      else none

/-- The tokens in document order. -/
def ordered (p : Progress) : List Token := p.tokens.reverse

/-- End the document early. -/
def stop (p : Progress) (fault : MarkupFault) :
    List Token × Option MarkupFault :=
  (p.ordered, some fault)

/-- Report a piece of text. -/
def addText? (p : Progress) (bytes : List UInt8) : Option Progress :=
  (Utf8.decode? bytes).map fun text => p.report (.text text)

end Progress

/-- Read a start tag, which may be an end tag as well. -/
def readStartTag? (p : Progress) (bytes : List UInt8) :
    Option (Progress × List UInt8) := do
  let (tag, rest) ← splitTag? none [] bytes
  if tag.getLast? = some (byte '/') then
    let tag := tag.dropLast
    let p ← p.openTag? tag
    return (← p.closeTag? (tag.takeWhile (!isSpace ·)), rest)
  else return (← p.openTag? tag, rest)

/-- Read an end tag after its opening mark. -/
def readEndTag? (p : Progress) (bytes : List UInt8) :
    Option (Progress × List UInt8) := do
  let (tag, rest) ← splitTag? none [] bytes
  return (← p.closeTag? (tag.reverse.dropWhile isSpace).reverse, rest)

/-- Skip a document type declaration after its opening angle bracket and
exclamation mark.  It has to name something. -/
def skipDoctype? (bytes : List UInt8) : Option (List UInt8) := do
  let (declaration, rest) ← splitDeclaration? 0 [] bytes
  let word := Utf8.decodeLossy (declaration.take 7)
  if word.map Char.toUpper = "DOCTYPE" &&
      (declaration.drop 7).any (!isSpace ·) then
    some rest
  else none

/-- Read markup after its opening angle bracket. -/
def readMarkup? (p : Progress) (bytes : List UInt8) :
    Option (Progress × List UInt8) :=
  match after? "![CDATA[" bytes, after? "!--" bytes, after? "!" bytes,
    after? "?" bytes, after? "/" bytes with
  | some rest, _, _, _, _ => do
      let (run, rest) ← splitAtMark? "]]>" [] rest
      return (← p.addText? run, rest)
  | _, some rest, _, _, _ => do
      let (_, rest) ← splitAtMark? "-->" [] rest
      return (p.report .aside, rest)
  | _, _, some rest, _, _ => do
      return (p.report .aside, ← skipDoctype? rest)
  | _, _, _, some rest, _ => do
      if rest.head? = some (byte '>') then none
      let (_, rest) ← splitAtMark? "?>" [] rest
      return (p.report .aside, rest)
  | _, _, _, _, some rest => readEndTag? p rest
  | none, none, none, none, none =>
      if bytes.isEmpty then none else readStartTag? p bytes

/-- Read all tokens; `total` is the number of bytes of the whole document.  The
fault that ends the document early is handed back with the tokens in front of
it. -/
def readFrom (total : Nat) : Nat → Progress → List UInt8 →
    List Token × Option MarkupFault
  | 0, p, _ => p.stop (.malformed .unexpectedEnd)
  | _ + 1, p, [] => (p.ordered, none)
  | fuel + 1, p, b :: rest =>
      if b == byte '<' then
        match readMarkup? p rest with
        | none => p.stop (.malformed .unexpectedMarkup)
        | some (p, left) => readFrom total fuel p left
      else if b == byte '&' then
        match rest.span fun b =>
            b != byte ';' && b != byte '&' && b != byte '<' with
        | (_, []) => p.stop (.malformed .badReference)
        | (name, mark :: left) =>
            if mark != byte ';' then p.stop (.malformed .badReference)
            else
              match Utf8.decode? name with
              | none => p.stop (.malformed .notUtf8)
              | some name =>
                  match textReference? name.toList with
                  | none =>
                      p.stop (.unknownEntity (total - left.length) name)
                  | some c =>
                      readFrom total fuel (p.report (.text c.toString)) left
      else
        let isText := fun b => b != byte '<' && b != byte '&'
        let run := b :: rest.takeWhile isText
        match p.addText? run with
        | none => p.stop (.malformed .notUtf8)
        | some p =>
            readFrom total fuel p (rest.dropWhile isText)

/-- Read all tokens of a document up to its end or its first fault. -/
def read (bytes : List UInt8) : List Token × Option MarkupFault :=
  let bytes := (after? "\uFEFF" bytes).getD bytes
  readFrom bytes.length (bytes.length + 1) {} bytes

end Token

end XmlRecords
