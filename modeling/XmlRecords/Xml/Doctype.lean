import XmlRecords.Xml.Scan

/-!
# Document type declarations

Of a document type declaration only the entities with a text of their own
matter.  Everything else in it is skipped, once it is known to be of a form that
may stand there.
-/

namespace XmlRecords.Xml

/-- An entity and the text that it stands for. -/
structure Entity where
  name : List Char
  text : List Char
  deriving DecidableEq, Repr

/-- The text of the entity that was declared first under a name. -/
def entityText? (entities : List Entity) (name : List Char) :
    Option (List Char) :=
  (entities.find? fun entity => entity.name == name).map (·.text)

/-- Skip the place of an external text, if one stands here.  The answer says
whether it does. -/
def skipExternal (text : List Char) : Except MarkupDefect (Bool × List Char) :=
  match after? "SYSTEM" text, after? "PUBLIC" text with
  | some rest, _ => do
      let (_, rest) ← readQuoted (← requireSpace rest)
      return (true, rest)
  | none, some rest => do
      let (_, rest) ← readQuoted (← requireSpace rest)
      let (_, rest) ← readQuoted (← requireSpace rest)
      return (true, rest)
  | none, none => .ok (false, text)

/-- Skip the notation of an external entity, if one is named here. -/
def skipNotation (text : List Char) : Except MarkupDefect (List Char) :=
  match after? "NDATA" (skipSpace text) with
  | none => .ok text
  | some rest => do
      let (_, rest) ← readName (← requireSpace rest)
      return rest

/-- Read an entity declaration after its opening mark.  External entities have
no text. -/
def readEntity (text : List Char) :
    Except MarkupDefect (Option Entity × List Char) := do
  let rest ← requireSpace text
  let (general, rest) ←
    match rest with
    | '%' :: rest => pure (false, ← requireSpace rest)
    | _ => pure (true, rest)
  let (name, rest) ← readName rest
  let rest ← requireSpace rest
  let (entity, rest) ←
    match rest with
    | 'S' :: _ | 'P' :: _ => do
        let (external, rest) ← skipExternal rest
        if !external then throw .unexpectedMarkup
        pure (none, ← if general then skipNotation rest else pure rest)
    | _ => do
        let (value, rest) ← readQuoted rest
        pure (some ⟨name, value⟩, rest)
  let rest ← requireMark ">" (skipSpace rest)
  return (entity, rest)

/-- Skip a declaration up to its closing angle bracket. -/
def skipDeclaration (text : List Char) : Except MarkupDefect (List Char) :=
  match text.dropWhile (· != '>') with
  | _ :: rest => .ok rest
  | [] => .error .unexpectedEnd

/-- The marks of declarations that are skipped. -/
def skippedMarks : List String := ["<!ELEMENT", "<!ATTLIST", "<!NOTATION"]

/-- Read the declarations between brackets, onto the entities declared so far in
reverse. -/
def readSubset : Nat → List Entity → List Char →
    Except MarkupDefect (List Entity × List Char)
  | 0, _, _ => .error .unexpectedEnd
  | fuel + 1, entities, text =>
      let text := skipSpace text
      match after? "<!ENTITY" text, after? "<!--" text, after? "<?" text,
        after? "]" text with
      | some rest, _, _, _ => do
          let (entity, rest) ← readEntity rest
          readSubset fuel (entity.toList ++ entities) rest
      | _, some rest, _, _ => do
          readSubset fuel entities (← skipComment rest)
      | _, _, some rest, _ => do
          readSubset fuel entities (← skipInstruction rest)
      | _, _, _, some rest => do
          let rest ← requireMark ">" (skipSpace rest)
          return (entities.reverse, rest)
      | none, none, none, none =>
          if skippedMarks.any fun mark => (after? mark text).isSome then do
            readSubset fuel entities (← skipDeclaration text)
          else .error .unexpectedMarkup

/-- Read a document type declaration after its opening mark. -/
def readDoctype (text : List Char) :
    Except MarkupDefect (List Entity × List Char) := do
  let (_, rest) ← readName (← requireSpace text)
  let (_, rest) ← skipExternal (skipSpace rest)
  match skipSpace rest with
  | '>' :: rest => return ([], rest)
  | '[' :: rest => readSubset (rest.length + 1) [] rest
  | _ => throw .unexpectedMarkup

end XmlRecords.Xml
