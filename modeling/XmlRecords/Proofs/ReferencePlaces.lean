import XmlRecords.Proofs.ContentSteps
import XmlRecords.Proofs.ReferencesInText
import XmlRecords.Proofs.TokenSteps

/-!
# Where references are resolved

The reader of tokens resolves references in text at the places that it comes to, and
those in attributes when it comes to their start tag.  A reference that stands for
nothing ends the reading there.
-/

namespace XmlRecords.Token

open Progress

variable {total offset : Nat} {p next : Progress} {document bytes word left : List UInt8}
  {name : String} {tokens : List Token} {c : Char}

/-- The bytes between an ampersand and the mark behind it, and the name that they
encode. -/
structure IsName (word : List UInt8) (name : String) : Prop where
  plain : ∀ b ∈ word, b != byte ';' && b != byte '&' && b != byte '<'
  decoded : Utf8.decode? word = some name

theorem step_reference (isName : IsName word name) :
    step total p (byte '&' :: (word ++ byte ';' :: left)) =
      match textReference? name.toList with
      | none => .error (p.stop (.unknownEntity (total - left.length) name))
      | some c => .ok (p.report (.text c.toString), left) := by
  have stops : Text.Stops (fun b => b != byte ';' && b != byte '&' && b != byte '<')
      (byte ';' :: left) := Text.stops_cons.2 rfl
  rw [step, if_neg (by decide), if_pos (by decide), List.span_eq_takeWhile_dropWhile,
    Text.takeWhile_append_of_stops isName.plain stops,
    Text.dropWhile_append_of_stops isName.plain stops]
  dsimp only
  rw [if_neg (by decide)]
  cases found : textReference? name.toList with
  | none => simp only [isName.decoded, found]
  | some c => simp only [isName.decoded, found]

/-- Only a reference that stands for nothing is an unknown entity. -/
theorem exists_of_step_eq_unknownEntity
    (ends : step total p bytes = .error (tokens, some (.unknownEntity offset name))) :
    ∃ word left, bytes = byte '&' :: (word ++ byte ';' :: left) ∧ IsName word name ∧
      textReference? name.toList = none ∧ tokens = p.ordered ∧
      offset = total - left.length := by
  cases bytes with
  | nil => cases ends
  | cons b rest =>
      rw [step] at ends
      split at ends
      · split at ends <;> cases ends
      · split at ends
        · next isAmpersand =>
            rw [List.span_eq_takeWhile_dropWhile] at ends
            split at ends
            · cases ends
            · next word mark left parted =>
                obtain ⟨isWord, isRest⟩ := Prod.mk.inj parted
                split at ends
                · cases ends
                · next isMark =>
                    split at ends
                    · cases ends
                    · next decoded =>
                        split at ends
                        · next unresolved =>
                            cases ends
                            obtain rfl : mark = byte ';' := by simpa using isMark
                            refine ⟨word, left, ?_, ⟨?_, decoded⟩, unresolved, rfl, rfl⟩
                            · rw [beq_iff_eq.1 isAmpersand, ← isRest, ← isWord,
                                List.takeWhile_append_dropWhile]
                            · intro b member
                              have kept := List.mem_takeWhile_imp (isWord ▸ member)
                              exact kept
                        · cases ends
        · dsimp only at ends
          split at ends <;> cases ends

/-- A reference that stands for a character is reported as the character. -/
theorem Comes.reference (isName : IsName word name)
    (comes : Comes document p (byte '&' :: (word ++ byte ';' :: left)))
    (resolved : textReference? name.toList = some c) :
    Comes document (p.report (.text c.toString)) left := by
  refine comes.next ?_
  rw [step_reference isName, resolved]

/-- The reading ends with an unknown entity exactly at a reference that stands for
nothing. -/
theorem read_eq_unknownEntity_iff :
    read document = (tokens, some (.unknownEntity offset name)) ↔
      ∃ p word left, Comes document p (byte '&' :: (word ++ byte ';' :: left)) ∧
        IsName word name ∧ textReference? name.toList = none ∧ tokens = p.ordered ∧
        offset = (body document).length - left.length := by
  rw [read_eq_iff]
  constructor
  · rintro ⟨p, bytes, comes, ends⟩
    obtain ⟨word, left, rfl, isName, found⟩ := exists_of_step_eq_unknownEntity ends
    exact ⟨p, word, left, comes, isName, found⟩
  · rintro ⟨p, word, left, comes, isName, unresolved, rfl, rfl⟩
    refine ⟨p, _, comes, ?_⟩
    rw [step_reference isName, unresolved]
    rfl

section Attributes

variable {tag : List UInt8} {a : RawAttribute} {raw : List RawAttribute}
  {bindings : Bindings}

/-- A tag without the slash by which it is an end tag as well. -/
def tagBody (tag : List UInt8) : List UInt8 :=
  if tag.getLast? = some (byte '/') then tag.dropLast else tag

/-- The attributes of a tag as they are written. -/
def writtenAttributes? (tag : List UInt8) : Option (List RawAttribute) :=
  readAttributes (tag.length + 1) [] (tag.drop (tag.takeWhile (!isSpace ·)).length)

/-- An attribute, no declaration, that is written in the start tag at the front of bytes,
behind its opening angle bracket. -/
structure HasAttribute (bytes : List UInt8) (a : RawAttribute) : Prop where
  begins : ∀ b, bytes.head? = some b → b ∉ [byte '!', byte '?', byte '/']
  own : declaredLabel? a.key = none
  written : ∃ tag left raw, splitTag? none [] bytes = some (tag, left) ∧
    writtenAttributes? (tagBody tag) = some raw ∧ a ∈ raw

theorem after?_eq_none (mark : String) {first : UInt8} {others : List UInt8}
    (encoded : Utf8.encode mark = first :: others) (other : bytes.head? ≠ some first) :
    after? mark bytes = none := by
  unfold after?
  rw [encoded, if_neg]
  intro begins
  obtain ⟨rest, rfl⟩ := List.isPrefixOf_iff_prefix.1 begins
  exact other rfl

/-- A start tag is none of the other pieces of markup. -/
theorem HasAttribute.readMarkup?_eq (has : HasAttribute bytes a) :
    readMarkup? p bytes = readStartTag? p bytes := by
  have other : ∀ b, bytes.head? = some b → b ≠ byte '!' ∧ b ≠ byte '?' ∧ b ≠ byte '/' := by
    simpa using has.begins
  have mark : bytes.head? ≠ some (byte '!') := fun begins => (other _ begins).1 rfl
  have question : bytes.head? ≠ some (byte '?') := fun begins => (other _ begins).2.1 rfl
  have slash : bytes.head? ≠ some (byte '/') := fun begins => (other _ begins).2.2 rfl
  have filled : bytes.isEmpty = false := by
    obtain ⟨_, _, _, split, _⟩ := has.written
    cases bytes with
    | nil => cases split
    | cons => rfl
  unfold readMarkup?
  rw [after?_eq_none "![CDATA[" rfl mark, after?_eq_none "!--" rfl mark,
    after?_eq_none "!" rfl mark, after?_eq_none "?" rfl question,
    after?_eq_none "/" rfl slash, filled]
  rfl

theorem exists_of_mem_mapM {f : RawAttribute → Option Attribute} {values : List Attribute}
    (mapped : raw.mapM f = some values) (member : a ∈ raw) : ∃ value, f a = some value := by
  induction raw generalizing values with
  | nil => cases member
  | cons first others ih =>
      rw [List.mapM_cons] at mapped
      obtain ⟨value, is, mapped⟩ := Option.bind_eq_some_iff.1 mapped
      obtain ⟨_, mapped, _⟩ := Option.bind_eq_some_iff.1 mapped
      obtain rfl | later := List.mem_cons.1 member
      · exact ⟨value, is⟩
      · exact ih mapped later

theorem exists_readAttribute?_of_openTag? (opened : p.openTag? tag = some next)
    (written : writtenAttributes? tag = some raw) (member : a ∈ raw)
    (own : declaredLabel? a.key = none) :
    ∃ bindings value, readAttribute? bindings a = some value := by
  obtain ⟨found, read, opened⟩ := Option.bind_eq_some_iff.1 opened
  obtain rfl : found = raw := Option.some.inj (read.symm.trans written)
  obtain ⟨bindings, _, opened⟩ := Option.bind_eq_some_iff.1 opened
  obtain ⟨attributes, mapped, _⟩ := Option.bind_eq_some_iff.1 opened
  have among : a ∈ found.filter fun a => (declaredLabel? a.key).isNone :=
    List.mem_filter.2 ⟨member, by simp [own]⟩
  exact ⟨bindings, exists_of_mem_mapM mapped among⟩

/-- A start tag is read only if the references in the values of its attributes are
references for attributes. -/
theorem HasAttribute.valueReference? (has : HasAttribute bytes a)
    (read : readMarkup? p bytes = some (next, left)) {text : String}
    (decoded : Utf8.decode? a.value = some text) {reference : List Char}
    (inside : HasReference reference text.toList) :
    ∃ c, Token.valueReference? reference = some c := by
  obtain ⟨tag, behind, raw, split, written, member⟩ := has.written
  have opens : ∃ after, p.openTag? (tagBody tag) = some after := by
    rw [has.readMarkup?_eq] at read
    obtain ⟨⟨found, rest⟩, again, read⟩ := Option.bind_eq_some_iff.1 read
    cases again.symm.trans split
    dsimp only at read
    rw [tagBody]
    split at read
    · next isEnd =>
        obtain ⟨after, opened, _⟩ := Option.bind_eq_some_iff.1 read
        exact ⟨after, by rwa [if_pos isEnd]⟩
    · next notEnd =>
        obtain ⟨after, opened, _⟩ := Option.bind_eq_some_iff.1 read
        exact ⟨after, by rwa [if_neg notEnd]⟩
  obtain ⟨after, opened⟩ := opens
  obtain ⟨bindings, value, isValue⟩ :=
    exists_readAttribute?_of_openTag? opened written member has.own
  obtain ⟨found, again, isValue⟩ := Option.bind_eq_some_iff.1 isValue
  cases again.symm.trans decoded
  obtain ⟨_, unescaped, _⟩ := Option.bind_eq_some_iff.1 isValue
  exact valueReference?_of_unescape? unescaped inside

/-- The reading ends at a start tag with any other reference in an attribute. -/
theorem Comes.read_attribute (comes : Comes document p (byte '<' :: bytes))
    (has : HasAttribute bytes a) {text : String}
    (decoded : Utf8.decode? a.value = some text) {reference : List Char}
    (inside : HasReference reference text.toList)
    (unresolved : Token.valueReference? reference = none) :
    read document = p.stop (.malformed .unexpectedMarkup) := by
  have refused : readMarkup? p bytes = none := by
    cases read : readMarkup? p bytes with
    | none => rfl
    | some found =>
        obtain ⟨c, resolved⟩ := has.valueReference? read decoded inside
        cases unresolved.symm.trans resolved
  refine read_eq_iff.2 ⟨p, _, comes, ?_⟩
  rw [step, if_pos (by decide), refused]

end Attributes

end XmlRecords.Token

namespace XmlRecords.Xml

variable {allowDoctype : Bool} {document : String} {tree : Tree} {text name : List Char}

/-- A text that the reader of a document resolves references in: the value of an
attribute, or a run of content. -/
inductive Resolves (allowDoctype : Bool) (document : String) : List Char → Prop where
  | rootValue {entities : List Entity} {tag : StartTag} {rest : List Char}
      {a : Label × List Char} (root : HasRoot allowDoctype document entities tag rest)
      (member : a ∈ tag.attributes) : Resolves allowDoctype document a.2
  | value {entities : List Entity} {fuel level : Nat} {tagged : Bool} {p : Progress}
      {first : Char} {text rest : List Char} {tag : StartTag} {a : Label × List Char}
      (comes : Comes allowDoctype document entities
        ⟨fuel + 1, level, tagged, p, '<' :: first :: text⟩)
      (starts : isNameStart first) (read : readStartTag fuel (first :: text) = .ok (tag, rest))
      (member : a ∈ tag.attributes) : Resolves allowDoctype document a.2
  | run {entities : List Entity} {fuel level : Nat} {tagged : Bool} {p : Progress}
      {run rest : List Char}
      (comes : Comes allowDoctype document entities ⟨fuel + 1, level, tagged, p, run ++ rest⟩)
      (filled : run ≠ []) (plain : ∀ c ∈ run, c != '<')
      (ends : Text.Stops (· != '<') rest) : Resolves allowDoctype document run

/-- A document is read only if all references are that its reader comes to. -/
theorem Resolves.isRead (resolves : Resolves allowDoctype document text)
    (has : HasReference name text) (read : readTree allowDoctype document = .ok tree) :
    IsRead name := by
  cases resolves with
  | rootValue root member =>
      obtain ⟨p, added, _⟩ := root.exists_addTag read
      exact isRead_of_addTag added member has
  | value comes starts begun member =>
      obtain ⟨result, ended⟩ := comes.exists_read read
      rw [ContentPlace.read, readContentWith_tag _ starts] at ended
      obtain ⟨found, same, ended⟩ := Outcome.bind_eq_ok.1 ended
      cases begun.symm.trans same
      obtain ⟨next, added, _⟩ := Outcome.bind_eq_ok.1 ended
      exact isRead_of_addTag added member has
  | run comes filled plain ends =>
      obtain ⟨result, ended⟩ := comes.exists_read read
      rw [ContentPlace.read, readContentWith_run filled plain ends] at ended
      split at ended
      · cases ended
      · split at ended
        · cases ended
        · obtain ⟨next, run, _⟩ := Outcome.bind_eq_ok.1 ended
          exact isRead_of_readTextWith has run

end XmlRecords.Xml

namespace XmlRecords.Event

open Token

theorem read_eq_iff {document : List UInt8} {events : List Event} {fault : MarkupFault} :
    Event.read document = (events, some fault) ↔
      ∃ tokens, Token.read document = (tokens, some fault) ∧
        events = coalesce false "" tokens := by
  rw [Event.read]
  obtain ⟨tokens, ended⟩ := Token.read document
  simp only [Prod.mk.injEq]
  constructor
  · rintro ⟨rfl, rfl⟩
    exact ⟨tokens, ⟨rfl, rfl⟩, rfl⟩
  · rintro ⟨_, ⟨rfl, rfl⟩, rfl⟩
    exact ⟨rfl, rfl⟩

/-- In the text of events exactly those references are resolved that are predefined
entities or numbers of characters, where a plus sign may stand in front of the digits and
the mark of hexadecimal ones may be a capital.  Apart from plus signs, capital marks and
characters that documents may not hold these are the references of documents.

A reference is resolved wherever the reader comes to it, and any other one is where the
reading ends.  It also ends at an attribute with a number that is not spelled exactly, or
is zero, and the reader of trees fails at any number that is not spelled exactly. -/
theorem read_references (name : List Char) (document : List UInt8) (text : String) :
    (∀ c, textReference? name = some c ↔
      Xml.predefinedEntity? name = some c ∨
        ∃ number, name = '#' :: number ∧ TakesNumber number c.toNat) ∧
    (∀ c, Refers name c ↔
      textReference? name = some c ∧ '+' ∉ name ∧ 'X' ∉ name ∧ Xml.isAllowed c) ∧
    (∀ p word left title c,
      Comes document p (byte '&' :: (word ++ byte ';' :: left)) → IsName word title →
        textReference? title.toList = some c →
          Comes document (p.report (.text c.toString)) left) ∧
    (∀ events offset title,
      Event.read document = (events, some (.unknownEntity offset title)) ↔
        ∃ p word left, Comes document p (byte '&' :: (word ++ byte ';' :: left)) ∧
          IsName word title ∧ textReference? title.toList = none ∧
          events = coalesce false "" p.ordered ∧
          offset = (body document).length - left.length) ∧
    (∀ p bytes a value number, Comes document p (byte '<' :: bytes) →
      HasAttribute bytes a → Utf8.decode? a.value = some value →
        HasReference ('#' :: number) value.toList →
          (∀ c : Char, SpellsNumber number c.toNat → c = '\x00') →
            Event.read document =
              (coalesce false "" p.ordered, some (.malformed .unexpectedMarkup))) ∧
    (∀ allowDoctype piece number, Xml.Resolves allowDoctype text piece →
      HasReference ('#' :: number) piece → (∀ value, ¬ SpellsNumber number value) →
        ∃ defect, Xml.readTree allowDoctype text = .error defect) := by
  refine ⟨fun _ => textReference?_eq_some_iff, fun _ => refers_iff,
    fun _ _ _ _ _ comes isName resolved => comes.reference isName resolved, ?_, ?_, ?_⟩
  · intro events offset title
    rw [read_eq_iff]
    constructor
    · rintro ⟨tokens, ended, rfl⟩
      obtain ⟨p, word, left, comes, isName, unresolved, rfl, place⟩ :=
        read_eq_unknownEntity_iff.1 ended
      exact ⟨p, word, left, comes, isName, unresolved, rfl, place⟩
    · rintro ⟨p, word, left, comes, isName, unresolved, rfl, place⟩
      exact ⟨p.ordered, read_eq_unknownEntity_iff.2
        ⟨p, word, left, comes, isName, unresolved, rfl, place⟩, rfl⟩
  · intro p bytes a value number comes has decoded inside unspelled
    refine read_eq_iff.2 ⟨p.ordered, comes.read_attribute has decoded inside ?_, rfl⟩
    rw [Option.eq_none_iff_forall_ne_some]
    intro c resolved
    obtain ⟨spells, nonzero⟩ := valueReference?_number.1 resolved
    exact nonzero (unspelled c spells)
  · intro allowDoctype piece number resolves inside unspelled
    cases read : Xml.readTree allowDoctype text with
    | error defect => exact ⟨defect, rfl⟩
    | ok tree =>
        have apart : ';' ∉ number :=
          fun member => inside.unmarked (List.mem_cons_of_mem _ member)
        obtain ⟨value, spells⟩ :=
          Xml.exists_spellsNumber_of_isRead (resolves.isRead inside read) apart
        exact absurd spells (unspelled value)

/-- A number with a minus sign is refused everywhere. -/
theorem read_references_minus :
    Event.read (Utf8.encode "<a>&#-65;</a>") =
        ([.start ⟨"a", none⟩ []], some (.unknownEntity 9 "#-65")) ∧
      Event.read (Utf8.encode "<a b=\"&#-65;\"/>") =
        ([], some (.malformed .unexpectedMarkup)) ∧
      ∃ defect, Xml.readTree false "<a>&#-65;</a>" = .error defect := by
  have unspelled : ∀ value, ¬ SpellsNumber "-65".toList value :=
    not_spellsNumber_of_mem (c := '-') rfl (by decide) (by decide)
  have inside : HasReference ('#' :: "-65".toList) "&#-65;".toList :=
    ⟨by decide, by decide, [], [], rfl⟩
  have has : HasAttribute (Utf8.encode "a b=\"&#-65;\"/>")
      ⟨Utf8.encode "b", Utf8.encode "&#-65;"⟩ := by
    refine ⟨?_, rfl, _, _, _, rfl, rfl, List.mem_cons_self⟩
    rintro b ⟨⟩
    decide
  have begins : Comes (Utf8.encode "<a b=\"&#-65;\"/>") {}
      (byte '<' :: Utf8.encode "a b=\"&#-65;\"/>") := .start
  obtain ⟨_, _, _, fails, _, refuses⟩ :=
    read_references "#-65".toList (Utf8.encode "<a>&#-65;</a>") "<a>&#-65;</a>"
  obtain ⟨_, _, _, _, refusesValue, _⟩ :=
    read_references "#-65".toList (Utf8.encode "<a b=\"&#-65;\"/>") ""
  refine ⟨(fails _ _ _).2 ⟨_, Utf8.encode "#-65", Utf8.encode "</a>", .next .start rfl,
    ⟨List.all_eq_true.1 rfl, rfl⟩, rfl, rfl, rfl⟩, ?_, ?_⟩
  · exact refusesValue _ _ _ _ _ begins has rfl inside
      fun c spells => absurd spells (unspelled _)
  · have comes : Xml.Comes false "<a>&#-65;</a>" []
        ⟨_, _, _, _, "&#-65;".toList ++ "</a>".toList⟩ := .start ⟨_, rfl, rfl⟩ rfl rfl
    have plain : ∀ c ∈ "&#-65;".toList, c != '<' := List.all_eq_true.1 rfl
    have stops : Text.Stops (· != '<') "</a>".toList := Text.stops_cons.2 rfl
    exact refuses _ _ _ (.run comes (List.cons_ne_nil _ _) plain stops) inside unspelled

/-- A plus sign, a capital mark and a character that no document may hold are taken in
text, though the first is refused in attributes and in trees. -/
theorem read_signed_reference :
    (textReference? "#+65".toList = some 'A' ∧ ¬ Refers "#+65".toList 'A') ∧
    (textReference? "#X41".toList = some 'A' ∧ ¬ Refers "#X41".toList 'A') ∧
    (textReference? "#1".toList = some '\x01' ∧ ¬ Refers "#1".toList '\x01') ∧
    Event.read (Utf8.encode "<a>&#+65;</a>") =
      ([.start ⟨"a", none⟩ [], .text "A", .finish], none) ∧
    Event.read (Utf8.encode "<a b=\"&#+65;\"/>") =
      ([], some (.malformed .unexpectedMarkup)) ∧
    Xml.readTree false "<a>&#+65;</a>" = .error .badReference := by
  refine ⟨⟨rfl, fun refers => ?_⟩, ⟨rfl, fun refers => ?_⟩, ⟨rfl, fun refers => ?_⟩, rfl, rfl,
    rfl⟩
  · exact absurd (refers_iff.1 refers).2.1 (by decide)
  · exact absurd (refers_iff.1 refers).2.2.1 (by decide)
  · exact absurd (refers_iff.1 refers).2.2.2 (by decide)

end XmlRecords.Event
