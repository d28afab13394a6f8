import XmlRecords.Proofs.SoundReading
import XmlRecords.Proofs.TrimmedContent
import XmlRecords.Proofs.WrittenContent

/-!
# Inner markup read back

What an element contains, written as markup between tags with the namespace of the
element as the default, is a document again.  It is read back as the same content, apart
from attributes that carry no data and white space at both ends, as long as all that is
in it stays what it is when it is written.
-/

namespace XmlRecords

namespace Content

mutual

theorem isNormal_withoutMeta (item : Content) :
    item.withoutMeta.isNormal = item.isNormal := by
  cases item with
  | text value => rfl
  | element name attributes content =>
      exact isNormalList_withoutMetaList content

theorem isNormalList_withoutMetaList (items : List Content) :
    isNormalList (withoutMetaList items) = isNormalList items := by
  cases items with
  | nil => rfl
  | cons item rest =>
      have apart : ∀ items : List Content,
          startsWithText (withoutMetaList items) = startsWithText items := by
        rintro (_ | ⟨_ | _, _⟩) <;> rfl
      have single := apart [item]
      rw [withoutMetaList, isNormalList, isNormalList, isNormal_withoutMeta item,
        isNormalList_withoutMetaList rest, apart rest]
      rw [withoutMetaList, withoutMetaList] at single
      rw [single]

end

mutual

theorem depth_withoutMeta (item : Content) : item.withoutMeta.depth = item.depth := by
  cases item with
  | text value => rfl
  | element name attributes content =>
      rw [withoutMeta, depth, depth, depthOfList_withoutMetaList content]

theorem depthOfList_withoutMetaList (items : List Content) :
    depthOfList (withoutMetaList items) = depthOfList items := by
  cases items with
  | nil => rfl
  | cons item rest =>
      rw [withoutMetaList, depthOfList, depthOfList, depth_withoutMeta item,
        depthOfList_withoutMetaList rest]

end

end Content

namespace Xml

open Content (startsWithText isNormalList depthOfList)

mutual

/-- A tree that is in normal form with every run as an item is collected as it is. -/
theorem Tree.content?_eq_bare (tree : Tree) {levels : Nat} (normal : tree.bare.isNormal)
    (fits : tree.bare.depth ≤ levels) : tree.content? levels = some tree.bare := by
  cases tree with
  | text value => rfl
  | element name attributes scope content =>
      cases levels with
      | zero => exact absurd fits (Nat.not_succ_le_zero _)
      | succ levels =>
          rw [content?, Tree.contents?_eq_bareList content normal (.inl rfl)
            (Nat.le_of_succ_le_succ fits)]
          rfl

theorem Tree.contents?_eq_bareList (items : List Tree) {levels : Nat}
    {latest : List Content} (normal : isNormalList (Tree.bareList items))
    (fresh : startsWithText latest = false ∨ startsWithText (Tree.bareList items) = false)
    (fits : depthOfList (Tree.bareList items) ≤ levels) :
    Tree.contents? levels latest items = some (latest.reverse ++ Tree.bareList items) := by
  cases items with
  | nil => simp [contents?, bareList]
  | cons item rest =>
      have inner := @Tree.content?_eq_bare item levels
      rw [Tree.bareList] at normal fresh fits ⊢
      have whole := normal
      rw [isNormalList, Bool.and_eq_true, Bool.and_eq_true, Bool.not_eq_true',
        Bool.and_eq_false_iff] at normal
      rw [depthOfList] at fits
      cases item with
      | text value =>
          have front := fresh.resolve_right (by simp [bare, startsWithText])
          rw [bare] at whole ⊢
          rw [contents?, Content.pushText_of_isNormal whole front,
            Tree.contents?_eq_bareList rest normal.2
              (.inr (normal.1.2.resolve_left (by simp [bare, startsWithText])))
              (Nat.le_trans (Nat.le_max_right _ _) fits),
            List.reverse_cons, List.append_assoc]
          rfl
      | element name attributes scope content =>
          have child := inner normal.1.1 (Nat.le_trans (Nat.le_max_left _ _) fits)
          rw [contents?]
          · rw [child]
            dsimp only
            rw [Tree.contents?_eq_bareList rest normal.2 (.inl rfl)
                (Nat.le_trans (Nat.le_max_right _ _) fits),
              List.reverse_cons, List.append_assoc]
            rfl
          · simp

end

end Xml

namespace Xml

/-- Write a character of a quoted value so that it is read as itself. -/
def quoteChar (c : Char) : List Char :=
  if c = '\t' then "&#9;".toList
  else if c = '\n' then "&#10;".toList
  else if c = '\r' then "&#13;".toList
  else escapeChar c

theorem standsFor_quoteChar {c : Char} (allowed : isAllowed c) :
    StandsFor (quoteChar c) c := by
  unfold quoteChar
  split_ifs with tab line return'
  · subst tab
    exact ⟨.inl ⟨_, rfl, fun _ => rfl⟩, by decide⟩
  · subst line
    exact ⟨.inl ⟨_, rfl, fun _ => rfl⟩, by decide⟩
  · subst return'
    exact ⟨.inl ⟨_, rfl, fun _ => rfl⟩, by decide⟩
  · refine standsFor_escapeChar ?_
    simpa [isKept, allowed, isSpace, tab, line, return'] using em (c = ' ')

/-- Declare a namespace as the default. -/
def declare : Option String → List Char
  | none => []
  | some ns =>
      ' ' :: ("xmlns".toList ++ '=' :: '"' :: (ns.toList.flatMap quoteChar ++ ['"']))

theorem write_declare (ns : Option String) :
    (quoteWith quoteChar (rawScope none ns)).flatMap writeQuoted = declare ns := by
  cases ns with
  | none =>
      have nothing : rawScope none none = [] := if_pos rfl
      rw [nothing, quoteWith, List.map_nil, List.flatMap_nil, declare]
  | some ns => simp [rawScope, quoteWith, writeQuoted, Label.text, declare]

end Xml

/-- The content of an element as markup between tags with a name, where the namespace of
the element is declared as the default. -/
def Element.wrapped (e : Element) (tag : String) : String :=
  "<" ++ tag ++ String.ofList (Xml.declare e.name.ns) ++ ">" ++ e.innerMarkup ++
    "</" ++ tag ++ ">"

/-- Recognise elements whose namespace can be declared and whose content, without white
space at both ends, stays what it is when it is written. -/
def Element.isSteady (e : Element) : Bool :=
  e.name.ns.all (·.toList.all Xml.isAllowed) &&
    Content.areSteady e.name.ns (Content.trimEnds e.content)

namespace Xml

open Content (isNormalList)

section Document

variable {name : QName} {items : List Content}

/-- What has to hold of an element so that its content can be read back. -/
structure CanReadBack (name : QName) (items : List Content) : Prop where
  named : name.Sound
  allowed : ∀ ns, name.ns = some ns → ∀ c ∈ ns.toList, isAllowed c
  sound : ∀ item ∈ items, item.Sound
  steady : Content.areSteady name.ns items
  normal : isNormalList items

theorem CanReadBack.canOpen (can : CanReadBack name items) :
    CanOpen [] {} none name [] (quoteWith quoteChar (rawScope none name.ns)) := by
  have writable : ∀ a ∈ rawScope none name.ns, a.IsWritable quoteChar :=
    isWritable_rawScope fun _ ns isNamed c member =>
      standsFor_quoteChar (can.allowed ns isNamed c member)
  refine ⟨can.named, ⟨by simp, List.nodup_nil⟩, by simp, fun _ => rfl, rfl, rfl,
    isQuotable_quoteWith writable, ?_⟩
  rw [rawAttributes, List.append_nil]
  exact readValues_quoteWith writable 0

/-- An element is read back as the document element. -/
theorem CanReadBack.exists_tree_of_readRoot (can : CanReadBack name items) :
    ∃ tree, tree.bare = .element name [] (Content.withoutMetaList items) ∧
      readRoot [] (name.name.toList ++ (declare name.ns ++ (TagEnd.start.mark ++
        (Content.writeList name.ns items ++
          '<' :: '/' :: (name.name.toList ++ ['>']))))) = .ok (tree, []) := by
  have canOpen := can.canOpen
  rw [← write_declare]
  have within : (Content.writeList name.ns items ++
      '<' :: '/' :: (name.name.toList ++ ['>'])).length <
        (Content.writeList name.ns items ++
          '<' :: '/' :: (name.name.toList ++ ['>'])).length + 1 := Nat.lt_succ_self _
  obtain ⟨trees, running, less, same, more, read⟩ :=
    exists_trees_of_writeList [] (enterEntity [] maxEntityLevels) items
      (openWritten {} none name []) [] none false 0 0 can.sound can.steady can.normal
      (lookup_default_elementScope rfl canOpen.keeps) (by simp) within
  obtain ⟨less, rfl⟩ : ∃ fewer, less = fewer + 1 := ⟨less - 1, by omega⟩
  refine ⟨.element name [] (elementScope [] none name.ns []) trees, ?_, ?_⟩
  · rw [Tree.bare, same]
  · have ended := read.trans
      (readContentWith_endTag can.named.base (closeTag_of_opened rfl rfl rfl))
    rw [if_pos rfl] at ended
    rw [readRoot]
    refine Outcome.bind_eq_ok.2 ⟨_, canOpen.readStartTag (by simp) ?_ _,
      Outcome.bind_eq_ok.2 ⟨_, canOpen.addTag_start, ?_⟩⟩
    · simp only [List.length_append]
      omega
    · dsimp only
      split
      · refine Outcome.bind_eq_ok.2 ⟨_, ended, ?_⟩
        dsimp only [openWritten, Progress.endRun, Progress.addElement]
        rw [List.append_nil, List.reverse_reverse]
        rfl
      · next other => exact absurd rfl other

/-- A document with nothing around its element is read into that element. -/
theorem readTree_of_readRoot {first : Char} (starts : isNameStart first) {text : List Char}
    {tree : Tree} (read : readRoot [] (first :: text) = .ok (tree, [])) :
    readTree true (String.ofList ('<' :: first :: text)) = .ok tree := by
  -- Behind the angle bracket there is a name, so there is nothing to skip before it.
  obtain ⟨_, noMark⟩ := not_mark_of_isNameStart starts
  have noBang : first ≠ '!' := by
    rintro rfl
    simp at noMark
  have noQuestion : first ≠ '?' := by
    rintro rfl
    simp at noMark
  have noVersion : after? "<?xml " ('<' :: first :: text) = none :=
    after?_eq_none ['<'] noQuestion rfl text
  have noComment : after? "<!--" ('<' :: first :: text) = none :=
    after?_eq_none ['<'] noBang rfl text
  have noInstruction : after? "<?" ('<' :: first :: text) = none :=
    after?_eq_none ['<'] noQuestion rfl text
  have noDoctype : after? "<!DOCTYPE" ('<' :: first :: text) = none :=
    after?_eq_none ['<'] noBang rfl text
  have space : skipSpace ('<' :: first :: text) = '<' :: first :: text := rfl
  have misc : ∀ fuel, skipMisc (fuel + 1) ('<' :: first :: text) =
      .ok ('<' :: first :: text) := by
    intro fuel
    rw [skipMisc, space, noComment, noInstruction]
  have prolog : readProlog true ('<' :: first :: text) =
      .ok ([], '<' :: first :: text) := by
    rw [readProlog, misc]
    dsimp only [bind, Except.bind]
    rw [noDoctype]
    rfl
  unfold readTree
  extract_lets chars marked finish
  have letters : marked = '<' :: first :: text := by
    simp [marked, chars]
  rw [letters, noVersion, if_neg (by simp)]
  refine Outcome.bind_eq_ok.2 ⟨_, rfl, Outcome.bind_eq_ok.2 ⟨_, prolog, ?_⟩⟩
  dsimp only
  rw [space]
  exact Outcome.bind_eq_ok.2 ⟨_, read, Outcome.bind_eq_ok.2 ⟨[], rfl, rfl⟩⟩

/-- The letters of inner markup between tags. -/
theorem toList_wrapped {e : Element} (normal : e.isNormal) (tag : String) :
    (e.wrapped tag).toList =
      '<' :: (tag.toList ++ (declare e.name.ns ++ (TagEnd.start.mark ++
        (Content.writeList e.name.ns (Content.trimEnds e.content) ++
          '<' :: '/' :: (tag.toList ++ ['>']))))) := by
  simp [Element.wrapped, Content.toList_innerMarkup normal, TagEnd.mark]

/-- The content of an element that was read, without white space at both ends, can be
read back between tags with any name. -/
theorem canReadBack_of_readElement {limit : Nat} {text tag : String} {e : Element}
    (read : readElement limit text = .ok e) (steady : e.isSteady) (base : isBase tag) :
    CanReadBack ⟨tag, e.name.ns⟩ (Content.trimEnds e.content) := by
  rw [Element.isSteady, Bool.and_eq_true] at steady
  have normal : isNormalList e.content := isNormal_of_readElement read
  have trims := Content.trims_trimEnds normal
  cases sound_of_readElement read with
  | element named own inside =>
      exact {
        named := ⟨base, named.free⟩
        allowed := fun ns isNamed => by
          rw [isNamed] at steady
          exact List.all_eq_true.1 steady.1
        sound := Content.sound_of_trims trims inside
        steady := steady.2
        normal := Content.isNormalList_of_trims trims normal }

/-- Inner markup between tags with the namespace of the element as the default is a
document within the same limit, and it is read as the same content, without attributes
that carry no data and without white space at both ends. -/
theorem readElement_wrapped {limit : Nat} {text tag : String} {e : Element}
    (read : readElement limit text = .ok e) (steady : e.isSteady) (base : isBase tag) :
    readElement limit (e.wrapped tag) =
      .ok ⟨⟨tag, e.name.ns⟩, [], Content.withoutMetaList (Content.trimEnds e.content)⟩ := by
  have normal : isNormalList e.content := isNormal_of_readElement read
  have can := canReadBack_of_readElement read steady base
  obtain ⟨tree, bare, root⟩ := can.exists_tree_of_readRoot
  obtain ⟨first, letters, same, starts⟩ := exists_cons_of_isBase base
  have clean : tree.bare.isNormal := by
    rw [bare, Content.isNormal, Content.isNormalList_withoutMetaList]
    exact can.normal
  have fits : tree.bare.depth ≤ limit := by
    have depth : tree.bare.depth = e.depth := by
      rw [bare, Content.depth, Content.depthOfList_withoutMetaList,
        Content.depthOfList_of_trims (Content.trims_trimEnds normal)]
      rfl
    rw [depth]
    exact depth_le_of_readElement read
  have parsed : readTree true (e.wrapped tag) = .ok tree := by
    rw [← String.ofList_toList (s := e.wrapped tag), toList_wrapped normal]
    rw [same, List.cons_append] at root ⊢
    exact readTree_of_readRoot starts root
  rw [readElement_of_readTree parsed, tree.content?_eq_bare clean fits, bare]
  rfl

/-- An element with white space in front of its text, and with an attribute in another
namespace. -/
def labelled : Element where
  name := ⟨"a", some "u"⟩
  attributes := []
  content := [.text "\nx", .element ⟨"b", some "u"⟩ [⟨⟨"k", some "v"⟩, "<"⟩] []]

theorem readElement_wrapped_labelled :
    readElement 256 "<a xmlns='u'>\nx<b xmlns:p='v' p:k='&lt;'/></a>" = .ok labelled ∧
      labelled.isSteady ∧ isBase "r" ∧
      readElement 256 (labelled.wrapped "r") =
        .ok ⟨⟨"r", some "u"⟩, [],
          [.text "x", .element ⟨"b", some "u"⟩ [⟨⟨"k", some "v"⟩, "<"⟩] []]⟩ := by
  have parsed : readTree true "<a xmlns='u'>\nx<b xmlns:p='v' p:k='&lt;'/></a>" =
      .ok (.element ⟨"a", some "u"⟩ [] [("", "u")] [.text "\nx",
        .element ⟨"b", some "u"⟩ [⟨⟨"k", some "v"⟩, "<"⟩] [("p", "v"), ("", "u")] []]) := by
    rfl
  have read : readElement 256 "<a xmlns='u'>\nx<b xmlns:p='v' p:k='&lt;'/></a>" =
      .ok labelled := by
    rw [readElement_of_readTree parsed]
    rfl
  have steady : labelled.isSteady := by
    decide +kernel
  have base : isBase "r" := by
    decide
  exact ⟨read, steady, base, readElement_wrapped read steady base⟩

/-- An attribute in the reserved namespace is written with a declaration of that
namespace, which no document may have. -/
theorem readElement_wrapped_reserved :
    readElement 256 "<a><b xml:lang='en'/></a>" =
        .ok ⟨⟨"a", none⟩, [],
          [.element ⟨"b", none⟩ [⟨⟨"lang", some xmlNamespace⟩, "en"⟩] []]⟩ ∧
      (readElement 256 (Element.wrapped ⟨⟨"a", none⟩, [],
          [.element ⟨"b", none⟩ [⟨⟨"lang", some xmlNamespace⟩, "en"⟩] []]⟩ "a")).toOption =
        none := by
  have parsed : readTree true "<a><b xml:lang='en'/></a>" =
      .ok (.element ⟨"a", none⟩ [] [] [.element ⟨"b", none⟩
        [⟨⟨"lang", some xmlNamespace⟩, "en"⟩] [] []]) := by
    rfl
  have refused : ((readElement 256 (Element.wrapped ⟨⟨"a", none⟩, [], [.element ⟨"b", none⟩
      [⟨⟨"lang", some xmlNamespace⟩, "en"⟩] []]⟩ "a")).toOption).isNone := by
    decide +kernel
  refine ⟨?_, Option.isNone_iff_eq_none.1 refused⟩
  rw [readElement_of_readTree parsed]
  rfl

end Document

end Xml

end XmlRecords
