import XmlRecords.Xml.Content

/-!
# Well-formed documents

A document is read into one tree.  It has to be well-formed and to respect
namespaces.  In front of the document element there may be a declaration of the
version of markup and a document type declaration; around it there are only
comments, processing instructions and white space.
-/

namespace XmlRecords.Xml

/-- Read the document element after its opening angle bracket. -/
def readRoot (entities : List Entity) (text : List Char) :
    Except MarkupDefect (Tree × List Char) := do
  let (tag, rest) ← readStartTag (text.length + 1) text
  let p ← addTag entities maxEntityLevels {} tag
  let (p, rest) ←
    if tag.ending = .start then
      readContentWith entities maxEntityLevels
        (enterEntity entities maxEntityLevels) (rest.length + 1) 0 true p rest
    else pure (p, rest)
  match p.opened, p.root with
  | [], some root => return (root, rest)
  | _, _ => throw .unclosedElement

/-- Skip white space, comments and processing instructions. -/
def skipMisc : Nat → List Char → Except MarkupDefect (List Char)
  | 0, text => .ok text
  | fuel + 1, text =>
      let text := skipSpace text
      match after? "<!--" text, after? "<?" text with
      | some rest, _ => do skipMisc fuel (← skipComment rest)
      | none, some rest => do skipMisc fuel (← skipInstruction rest)
      | none, none => .ok text

/-- Require white space unless the declaration ends here. -/
def spaceInDeclaration (text : List Char) : Except MarkupDefect (List Char) :=
  if text.isEmpty || (after? "?>" text).isSome then .ok text
  else requireSpace text

/-- Skip a declaration of the version of markup after its opening mark. -/
def skipVersion (text : List Char) : Except MarkupDefect (List Char) := do
  let rest ← spaceInDeclaration text
  if (after? "version" rest).isNone then throw .unexpectedMarkup
  let (_, rest) ← readAttribute rest
  let rest ← spaceInDeclaration rest
  let rest ←
    if (after? "encoding" rest).isSome then do
      let (_, rest) ← readAttribute rest
      spaceInDeclaration rest
    else pure rest
  let rest ←
    if (after? "standalone" rest).isSome then do
      let (_, rest) ← readAttribute rest
      pure rest
    else pure rest
  requireMark "?>" (skipSpace rest)

/-- Read the document type declaration, if there is one and it is allowed. -/
def readProlog (allowDoctype : Bool) (text : List Char) :
    Except MarkupDefect (List Entity × List Char) := do
  let text ← skipMisc (text.length + 1) text
  match after? "<!DOCTYPE" text with
  | none => return ([], text)
  | some rest =>
      if !allowDoctype then throw .doctypeRefused
      let (entities, rest) ← readDoctype rest
      return (entities, ← skipMisc (rest.length + 1) rest)

/-- Read a document.  Whether it may have a document type declaration is up to
the caller. -/
def readTree (allowDoctype : Bool) (text : String) :
    Except MarkupDefect Tree := do
  let text := text.toList
  let text := if text.head? == some '\uFEFF' then text.drop 1 else text
  let text ←
    if (after? "<?xml " text).isSome then skipVersion (text.drop 5)
    else pure text
  let (entities, text) ← readProlog allowDoctype text
  match skipSpace text with
  | '<' :: rest =>
      let (root, rest) ← readRoot entities rest
      match ← skipMisc (rest.length + 1) rest with
      | [] => return root
      | _ => throw .unexpectedMarkup
  | [] => throw .noElement
  | _ => throw .unexpectedMarkup

/-- Read the element of a document whose elements are at most a number of levels
deep. -/
def readElement (limit : Nat) (text : String) : Except Error Element := do
  let tree ← (readTree true text).mapError fun defect =>
    .markup (.malformed defect)
  match (tree.content? limit).bind Content.element? with
  | some element => return element
  | none => throw (.markup (.tooDeep limit))

end XmlRecords.Xml
