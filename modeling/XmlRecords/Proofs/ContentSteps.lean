import XmlRecords.Proofs.Runs
import XmlRecords.Proofs.WrittenTags
import XmlRecords.Xml.Document

/-!
# Content piece by piece

The content of a document is read one piece after the other.  So whatever is wrong with
a piece that the reader comes to is wrong with the document.
-/

namespace XmlRecords.Xml

section Pieces

variable {entities : List Entity} {levels fuel level : Nat}
  {enter : Progress → List Char → Except MarkupDefect Progress} {tagged : Bool}
  {p next : Progress} {text rest left : List Char}

theorem after?_eq_none {mark : String} (front : List Char) {c first : Char}
    (differs : first ≠ c) {back : List Char} (letters : mark.toList = front ++ c :: back)
    (text : List Char) :
    after? mark (front ++ first :: text) = none := by
  rw [after?, if_neg]
  rw [List.isPrefixOf_iff_prefix, letters, List.prefix_append_right_inj,
    List.cons_prefix_cons]
  exact fun same => differs same.1.symm

/-- Behind a start tag the reader goes on in its element. -/
theorem readContentWith_tag (p : Progress) {first : Char} (starts : isNameStart first)
    (text : List Char) :
    readContentWith entities levels enter (fuel + 1) level tagged p
        ('<' :: first :: text) =
      (readStartTag fuel (first :: text)).bind fun found =>
        (addTag entities levels p found.1).bind fun next =>
          readContentWith entities levels enter fuel
            (if found.1.ending = .start then level + 1 else level) true next found.2 := by
  obtain ⟨_, noMark⟩ := not_mark_of_isNameStart starts
  have noBang : first ≠ '!' := by
    rintro rfl
    simp at noMark
  have noComment : after? "!--" (first :: text) = none := after?_eq_none [] noBang rfl text
  have noSection : after? "![CDATA[" (first :: text) = none :=
    after?_eq_none [] noBang rfl text
  conv_lhs => unfold readContentWith
  split
  · next impossible => cases impossible
  · next impossible => cases impossible
  · next sameFuel same =>
      cases sameFuel
      cases same
      rw [noComment, noSection]
      split
      · next impossible => cases impossible
      · next impossible => cases impossible
      · next same =>
          cases same
          simp at noMark
      · next same =>
          cases same
          simp at noMark
      · rfl
  · next isText => exact absurd rfl (isText _)

/-- Behind a comment the reader goes on. -/
theorem readContentWith_comment (mark : after? "!--" text = some rest) :
    readContentWith entities levels enter (fuel + 1) level tagged p ('<' :: text) =
      (skipComment rest).bind
        (readContentWith entities levels enter fuel level tagged p.endRun) := by
  conv_lhs => unfold readContentWith
  split
  · next impossible => cases impossible
  · next impossible => cases impossible
  · next sameFuel same =>
      cases sameFuel
      cases same
      rw [mark]
      rfl
  · next isText => exact absurd rfl (isText _)

/-- Behind a character section the reader goes on with its text. -/
theorem readContentWith_section (other : after? "!--" text = none)
    (mark : after? "![CDATA[" text = some rest) :
    readContentWith entities levels enter (fuel + 1) level tagged p ('<' :: text) =
      (readUntil "]]>" [] rest).bind fun found =>
        readContentWith entities levels enter fuel level tagged
          (p.addText (String.ofList (pushLiterals [] found.1).reverse)) found.2 := by
  conv_lhs => unfold readContentWith
  split
  · next impossible => cases impossible
  · next impossible => cases impossible
  · next sameFuel same =>
      cases sameFuel
      cases same
      rw [other, mark]
      rfl
  · next isText => exact absurd rfl (isText _)

/-- Behind a processing instruction the reader goes on. -/
theorem readContentWith_instruction :
    readContentWith entities levels enter (fuel + 1) level tagged p ('<' :: '?' :: rest) =
      (skipInstruction rest).bind
        (readContentWith entities levels enter fuel level tagged p.endRun) := by
  conv_lhs => unfold readContentWith
  split
  · next impossible => cases impossible
  · next impossible => cases impossible
  · next sameFuel same =>
      cases sameFuel
      cases same
      rfl
  · next isText => exact absurd rfl (isText _)

/-- Behind the end tag of an element that began here the reader goes on. -/
theorem readContentWith_end {found : Label × List Char} (read : readEndTag rest = .ok found)
    (closed : closeTag p found.1 = .ok next) :
    readContentWith entities levels enter (fuel + 1) level true p ('<' :: '/' :: rest) =
      if level = 0 then .ok (next, found.2)
      else readContentWith entities levels enter fuel (level - 1) true next found.2 := by
  conv_lhs => unfold readContentWith
  split
  · next impossible => cases impossible
  · next impossible => cases impossible
  · next sameFuel same =>
      cases sameFuel
      cases same
      dsimp only
      split
      · next impossible => cases impossible
      · next impossible => cases impossible
      · next impossible => cases impossible
      · next same =>
          cases same
          rw [if_neg (by simp), read]
          dsimp only [bind, Except.bind]
          rw [closed]
          dsimp only
          split
          · rfl
          · rfl
      · next other => exact absurd rfl (other _)
  · next isText => exact absurd rfl (isText _)

/-- Text is read up to the next piece of markup, as one run. -/
theorem readContentWith_run {run : List Char} (filled : run ≠ [])
    (plain : ∀ c ∈ run, c != '<') (ends : Text.Stops (· != '<') rest) :
    readContentWith entities levels enter (fuel + 1) level tagged p (run ++ rest) =
      if occursIn "]]>" run then .error .badText
      else if run.any (!isAllowed ·) then .error .forbiddenCharacter
      else
        (readTextWith entities (levels < maxEntityLevels) enter (run.length + 1) false [] p
          run).bind fun next =>
            readContentWith entities levels enter fuel level tagged next rest := by
  obtain ⟨first, others, letters⟩ := List.exists_cons_of_ne_nil filled
  conv_lhs => unfold readContentWith
  split
  · next impossible => cases impossible
  · next impossible =>
      rw [letters] at impossible
      cases impossible
  · next same =>
      rw [letters] at same
      cases same
      exact absurd (plain '<' (by simp [letters])) (by decide)
  · next sameFuel _ _ =>
      cases sameFuel
      dsimp only
      rw [Text.takeWhile_append_of_stops plain ends, Text.dropWhile_append_of_stops plain ends]
      split
      · rfl
      · split
        · rfl
        · rfl

end Pieces

/-- A place in content: how many pieces may still be read, how many elements have begun
here, whether there was one, what has been read, and the text that is left. -/
structure ContentPlace where
  fuel : Nat
  level : Nat
  tagged : Bool
  progress : Progress
  text : List Char

section Steps

variable {entities : List Entity} {levels : Nat}
  {enter : Progress → List Char → Except MarkupDefect Progress}

/-- A piece of content is read, and the reader comes to the place behind it. -/
inductive ContentStep (entities : List Entity) (levels : Nat)
    (enter : Progress → List Char → Except MarkupDefect Progress) :
    ContentPlace → ContentPlace → Prop where
  | comment {fuel level : Nat} {tagged : Bool} {p : Progress} {text rest left : List Char}
      (mark : after? "!--" text = some rest) (skip : skipComment rest = .ok left) :
      ContentStep entities levels enter ⟨fuel + 1, level, tagged, p, '<' :: text⟩
        ⟨fuel, level, tagged, p.endRun, left⟩
  | characters {fuel level : Nat} {tagged : Bool} {p : Progress}
      {text rest value left : List Char} (other : after? "!--" text = none)
      (mark : after? "![CDATA[" text = some rest)
      (read : readUntil "]]>" [] rest = .ok (value, left)) :
      ContentStep entities levels enter ⟨fuel + 1, level, tagged, p, '<' :: text⟩
        ⟨fuel, level, tagged, p.addText (String.ofList (pushLiterals [] value).reverse), left⟩
  | instruction {fuel level : Nat} {tagged : Bool} {p : Progress} {rest left : List Char}
      (skip : skipInstruction rest = .ok left) :
      ContentStep entities levels enter ⟨fuel + 1, level, tagged, p, '<' :: '?' :: rest⟩
        ⟨fuel, level, tagged, p.endRun, left⟩
  | endTag {fuel level : Nat} {p next : Progress} {rest left : List Char} {label : Label}
      (read : readEndTag rest = .ok (label, left)) (closed : closeTag p label = .ok next) :
      ContentStep entities levels enter ⟨fuel + 1, level + 1, true, p, '<' :: '/' :: rest⟩
        ⟨fuel, level, true, next, left⟩
  | startTag {fuel level : Nat} {tagged : Bool} {p next : Progress} {first : Char}
      {text left : List Char} {tag : StartTag} (starts : isNameStart first)
      (read : readStartTag fuel (first :: text) = .ok (tag, left))
      (added : addTag entities levels p tag = .ok next) :
      ContentStep entities levels enter ⟨fuel + 1, level, tagged, p, '<' :: first :: text⟩
        ⟨fuel, if tag.ending = .start then level + 1 else level, true, next, left⟩
  | run {fuel level : Nat} {tagged : Bool} {p next : Progress} {run rest : List Char}
      (filled : run ≠ []) (plain : ∀ c ∈ run, c != '<') (ends : Text.Stops (· != '<') rest)
      (noMark : occursIn "]]>" run = false) (allowed : run.any (!isAllowed ·) = false)
      (read : readTextWith entities (levels < maxEntityLevels) enter (run.length + 1) false
        [] p run = .ok next) :
      ContentStep entities levels enter ⟨fuel + 1, level, tagged, p, run ++ rest⟩
        ⟨fuel, level, tagged, next, rest⟩

/-- Read content from a place. -/
def ContentPlace.read (place : ContentPlace) (entities : List Entity) (levels : Nat)
    (enter : Progress → List Char → Except MarkupDefect Progress) :
    Except MarkupDefect (Progress × List Char) :=
  readContentWith entities levels enter place.fuel place.level place.tagged place.progress
    place.text

theorem ContentStep.read_eq {before behind : ContentPlace}
    (step : ContentStep entities levels enter before behind) :
    before.read entities levels enter = behind.read entities levels enter := by
  cases step with
  | comment mark skip =>
      rw [ContentPlace.read, readContentWith_comment mark, skip]
      rfl
  | characters other mark read =>
      rw [ContentPlace.read, readContentWith_section other mark, read]
      rfl
  | instruction skip =>
      rw [ContentPlace.read, readContentWith_instruction, skip]
      rfl
  | endTag read closed =>
      rw [ContentPlace.read, readContentWith_end read closed]
      rfl
  | startTag starts read added =>
      rw [ContentPlace.read, readContentWith_tag _ starts, read, Except.bind, added]
      rfl
  | run filled plain ends noMark allowed read =>
      rw [ContentPlace.read, readContentWith_run filled plain ends, noMark, allowed, read]
      rfl

end Steps

section Documents

variable {allowDoctype : Bool} {document : String} {tree : Tree} {entities : List Entity}
  {tag : StartTag} {rest : List Char} {place : ContentPlace}

/-- Read what stands in front of the document element: the entities that are declared
there, and what follows. -/
def readFront (allowDoctype : Bool) (document : String) :
    Except MarkupDefect (List Entity × List Char) := do
  let text := document.toList
  let text := if text.head? == some '\uFEFF' then text.drop 1 else text
  let text ←
    if (after? "<?xml " text).isSome then skipVersion (text.drop 5)
    else pure text
  let (entities, text) ← readProlog allowDoctype text
  return (entities, skipSpace text)

/-- Read the document element behind its opening angle bracket, and what follows it. -/
def readBack (entities : List Entity) : List Char → Except MarkupDefect Tree
  | '<' :: rest => do
      let (root, rest) ← readRoot entities rest
      match ← skipMisc (rest.length + 1) rest with
      | [] => return root
      | _ => throw .unexpectedMarkup
  | [] => throw .noElement
  | _ => throw .unexpectedMarkup

/-- A document is read up to its element, and then on from there. -/
theorem readTree_eq_bind : readTree allowDoctype document =
    (readFront allowDoctype document).bind fun found => readBack found.1 found.2 := by
  unfold readTree readFront
  extract_lets chars marked whole front
  have continues : ∀ text, whole text =
      (front text).bind fun found => readBack found.1 found.2 := by
    intro text
    dsimp only [whole, front]
    cases readProlog allowDoctype text <;> rfl
  split
  · cases skipVersion (marked.drop 5) with
    | error defect => rfl
    | ok text => exact continues text
  · exact continues marked

theorem exists_readFront_of_readTree (read : readTree allowDoctype document = .ok tree) :
    ∃ entities text rest, readFront allowDoctype document = .ok (entities, '<' :: text) ∧
      readRoot entities text = .ok (tree, rest) := by
  rw [readTree_eq_bind] at read
  obtain ⟨⟨entities, text⟩, front, read⟩ := Outcome.bind_eq_ok.1 read
  dsimp only at read
  unfold readBack at read
  split at read
  · next text =>
      obtain ⟨⟨root, rest⟩, inside, read⟩ := Outcome.bind_eq_ok.1 read
      obtain ⟨_, _, read⟩ := Outcome.bind_eq_ok.1 read
      split at read
      · cases read
        exact ⟨entities, text, rest, front, inside⟩
      · cases read
  · cases read
  · cases read

/-- The tag of the document element, with the entities that are declared in front of it
and the text behind it. -/
def HasRoot (allowDoctype : Bool) (document : String) (entities : List Entity)
    (tag : StartTag) (rest : List Char) : Prop :=
  ∃ text, readFront allowDoctype document = .ok (entities, '<' :: text) ∧
    readStartTag (text.length + 1) text = .ok (tag, rest)

/-- The reader of a document comes to a place in its element. -/
inductive Comes (allowDoctype : Bool) (document : String) (entities : List Entity) :
    ContentPlace → Prop where
  | start {tag : StartTag} {rest : List Char} {p : Progress}
      (root : HasRoot allowDoctype document entities tag rest)
      (added : addTag entities maxEntityLevels {} tag = .ok p) (filled : tag.ending = .start) :
      Comes allowDoctype document entities ⟨rest.length + 1, 0, true, p, rest⟩
  | next {before behind : ContentPlace} (comes : Comes allowDoctype document entities before)
      (step : ContentStep entities maxEntityLevels (enterEntity entities maxEntityLevels)
        before behind) : Comes allowDoctype document entities behind

/-- The tag of the document element of a document that is read begins an element, the
content of which is read as well. -/
theorem HasRoot.exists_addTag (root : HasRoot allowDoctype document entities tag rest)
    (read : readTree allowDoctype document = .ok tree) :
    ∃ p, addTag entities maxEntityLevels {} tag = .ok p ∧
      (tag.ending = .start → ∃ result,
        (ContentPlace.mk (rest.length + 1) 0 true p rest).read entities maxEntityLevels
          (enterEntity entities maxEntityLevels) = .ok result) := by
  obtain ⟨text, front, begun⟩ := root
  obtain ⟨_, _, _, again, inside⟩ := exists_readFront_of_readTree read
  cases front.symm.trans again
  rw [readRoot] at inside
  obtain ⟨found, same, inside⟩ := Outcome.bind_eq_ok.1 inside
  cases begun.symm.trans same
  obtain ⟨p, added, inside⟩ := Outcome.bind_eq_ok.1 inside
  refine ⟨p, added, fun filled => ?_⟩
  dsimp only at inside
  rw [if_pos filled] at inside
  obtain ⟨result, ended, _⟩ := Outcome.bind_eq_ok.1 inside
  exact ⟨result, ended⟩

/-- All content of a document that is read is read. -/
theorem Comes.exists_read (comes : Comes allowDoctype document entities place)
    (read : readTree allowDoctype document = .ok tree) :
    ∃ result, place.read entities maxEntityLevels (enterEntity entities maxEntityLevels) =
      .ok result := by
  induction comes with
  | start root added filled =>
      obtain ⟨p, again, inside⟩ := root.exists_addTag read
      cases added.symm.trans again
      exact inside filled
  | next _ step ih => exact step.read_eq ▸ ih

end Documents

end XmlRecords.Xml
