import Mathlib.Data.List.Forall2
import XmlRecords.Proofs.Collecting
import XmlRecords.Proofs.DocumentParts
import XmlRecords.Proofs.Spans
import XmlRecords.Xml.InnerMarkup

/-!
# White space around content

Inner markup is trimmed after it is written.  In normal form that is the same as to write
content that was trimmed at both ends: no run of text is blank, so only characters of the
first and of the last run are dropped.
-/

namespace XmlRecords

namespace Content

/-- Items without the white space in front of the first run of text. -/
def trimStart : List Content → List Content
  | .text value :: rest =>
      .text (String.ofList (value.toList.dropWhile isBlank)) :: rest
  | items => items

/-- Items without the white space behind the last run of text. -/
def trimEnd : List Content → List Content
  | [] => []
  | [.text value] => [.text (String.ofList (value.toList.rdropWhile isBlank))]
  | item :: rest => item :: trimEnd rest

/-- Items without the white space at both ends. -/
def trimEnds (items : List Content) : List Content := trimEnd (trimStart items)

/-- A run of text may lose characters, but not all that are no white space. -/
inductive Trims : Content → Content → Prop where
  | same {item : Content} : Trims item item
  | text {value less : String} (subset : less.toList ⊆ value.toList)
      (filled : Text.isAllBlank less = false) : Trims (.text value) (.text less)

section Trims

variable {items trimmed : List Content}

namespace Trims

variable {item less : Content}

theorem trans {least : Content} (first : Trims item less) (second : Trims less least) :
    Trims item least := by
  cases first with
  | same => exact second
  | text subset filled =>
      cases second with
      | same => exact .text subset filled
      | text further filled => exact .text (fun _ member => subset (further member)) filled

theorem sound (trims : Trims item less) (sound : item.Sound) : less.Sound := by
  cases trims with
  | same => exact sound
  | text subset _ =>
      cases sound with
      | text allowed => exact .text fun c member => allowed c (subset member)

theorem isNormal (trims : Trims item less) (normal : item.isNormal) : less.isNormal := by
  cases trims with
  | same => exact normal
  | text _ filled =>
      rw [Content.isNormal, filled]
      rfl

theorem depth (trims : Trims item less) : less.depth = item.depth := by
  cases trims <;> rfl

theorem startsWithText (trims : Trims item less) :
    Content.startsWithText [less] = Content.startsWithText [item] := by
  cases trims <;> rfl

end Trims

theorem startsWithText_of_trims (trims : List.Forall₂ Trims items trimmed) :
    startsWithText trimmed = startsWithText items := by
  cases trims with
  | nil => rfl
  | @cons item less rest others first _ =>
      rw [startsWithText_cons less others, startsWithText_cons item rest]
      exact first.startsWithText

theorem trims_refl (items : List Content) : List.Forall₂ Trims items items :=
  List.forall₂_same.2 fun _ _ => .same

theorem trims_trans {least : List Content} (first : List.Forall₂ Trims items trimmed)
    (second : List.Forall₂ Trims trimmed least) : List.Forall₂ Trims items least := by
  induction first generalizing least with
  | nil => exact second
  | cons head _ ih =>
      cases second with
      | cons head' rest' => exact .cons (head.trans head') (ih rest')

theorem sound_of_trims (trims : List.Forall₂ Trims items trimmed)
    (sound : ∀ item ∈ items, item.Sound) : ∀ item ∈ trimmed, item.Sound := by
  induction trims with
  | nil => exact sound
  | cons first _ ih =>
      rw [List.forall_mem_cons] at sound ⊢
      exact ⟨first.sound sound.1, ih sound.2⟩

theorem isNormalList_of_trims (trims : List.Forall₂ Trims items trimmed)
    (normal : isNormalList items) : isNormalList trimmed := by
  induction trims with
  | nil => exact normal
  | cons first rest ih =>
      rw [isNormalList, Bool.and_eq_true, Bool.and_eq_true] at normal ⊢
      rw [startsWithText_of_trims rest, first.startsWithText]
      exact ⟨⟨first.isNormal normal.1.1, normal.1.2⟩, ih normal.2⟩

theorem depthOfList_of_trims (trims : List.Forall₂ Trims items trimmed) :
    depthOfList trimmed = depthOfList items := by
  induction trims with
  | nil => rfl
  | cons first _ ih => rw [depthOfList, depthOfList, first.depth, ih]

end Trims

section Ends

/-- White space is dropped from characters before or after they are written. -/
theorem dropWhile_flatMap {write : Char → List Char}
    (blank : ∀ c, isBlank c → write c = [c])
    (filled : ∀ c, isBlank c = false → ∃ d more, write c = d :: more ∧ isBlank d = false)
    (chars : List Char) :
    (chars.flatMap write).dropWhile isBlank = (chars.dropWhile isBlank).flatMap write := by
  induction chars with
  | nil => rfl
  | cons c rest ih =>
      rw [List.flatMap_cons]
      cases isBlank' : isBlank c with
      | true =>
          rw [blank c isBlank', List.singleton_append, List.dropWhile_cons_of_pos isBlank',
            List.dropWhile_cons_of_pos isBlank', ih]
      | false =>
          obtain ⟨d, more, written, noBlank⟩ := filled c isBlank'
          rw [List.dropWhile_cons_of_neg (by simp [isBlank']), List.flatMap_cons, written,
            List.cons_append, List.dropWhile_cons_of_neg (by simp [noBlank])]

theorem escapeChar_of_isBlank {c : Char} (blank : isBlank c) :
    Xml.escapeChar c = [c] := by
  unfold Xml.escapeChar
  split_ifs with lt gt amp apos quot
  · subst lt
    cases blank
  · subst gt
    cases blank
  · subst amp
    cases blank
  · subst apos
    cases blank
  · subst quot
    cases blank
  · rfl

/-- What is written for a character that is no white space begins and ends with none. -/
theorem ends_escapeChar {c : Char} (filled : isBlank c = false) :
    (∃ d more, Xml.escapeChar c = d :: more ∧ isBlank d = false) ∧
      ∃ d more, (Xml.escapeChar c).reverse = d :: more ∧ isBlank d = false := by
  unfold Xml.escapeChar
  split_ifs
  case neg => exact ⟨⟨c, [], rfl, filled⟩, c, [], rfl, filled⟩
  all_goals exact ⟨⟨'&', _, rfl, rfl⟩, ';', _, rfl, rfl⟩

theorem dropWhile_escape (chars : List Char) :
    (chars.flatMap Xml.escapeChar).dropWhile isBlank =
      (chars.dropWhile isBlank).flatMap Xml.escapeChar :=
  dropWhile_flatMap (fun _ => escapeChar_of_isBlank)
    (fun _ filled => (ends_escapeChar filled).1) chars

theorem rdropWhile_escape (chars : List Char) :
    (chars.flatMap Xml.escapeChar).rdropWhile isBlank =
      (chars.rdropWhile isBlank).flatMap Xml.escapeChar := by
  rw [List.rdropWhile, List.rdropWhile, List.reverse_flatMap, dropWhile_flatMap,
    List.reverse_flatMap]
  · simp [Function.comp_def]
  · intro c blank
    rw [Function.comp_apply, escapeChar_of_isBlank blank]
    rfl
  · exact fun _ filled => (ends_escapeChar filled).2

/-- No text that is not blank is written as a blank one. -/
theorem all_escape {value : String} (filled : Text.isAllBlank value = false) :
    (Xml.escape value).all isBlank = false := by
  have dropped := dropWhile_escape value.toList
  rw [Text.isAllBlank, ← Text.all_dropWhile] at filled
  rw [Xml.escape, ← Text.all_dropWhile, dropped]
  cases left : value.toList.dropWhile isBlank with
  | nil =>
      rw [left] at filled
      cases filled
  | cons c rest =>
      have noBlank := List.head?_dropWhile_not isBlank value.toList
      rw [left] at noBlank
      obtain ⟨⟨d, more, written, filled'⟩, _⟩ := ends_escapeChar (c := c) (by simpa using noBlank)
      rw [List.flatMap_cons, written, List.cons_append, List.all_cons, filled', Bool.false_and]

variable {items : List Content} {space : Option String}

theorem isAllBlank_of_isNormalList {value : String} {rest : List Content}
    (normal : isNormalList (.text value :: rest)) : Text.isAllBlank value = false := by
  rw [isNormalList, Bool.and_eq_true, Bool.and_eq_true, isNormal, Bool.not_eq_true'] at normal
  exact normal.1.1

theorem trims_trimStart (normal : isNormalList items) :
    List.Forall₂ Trims items (trimStart items) := by
  cases items with
  | nil => exact .nil
  | cons item rest =>
      cases item with
      | element name attributes content => exact trims_refl _
      | text value =>
          have filled := isAllBlank_of_isNormalList normal
          refine .cons (.text ?_ ?_) (trims_refl rest)
          · rw [String.toList_ofList]
            exact (List.dropWhile_suffix _).subset
          · rwa [Text.isAllBlank, String.toList_ofList, Text.all_dropWhile]

/-- Trimming at the beginning commutes with writing. -/
theorem dropWhile_writeList (normal : isNormalList items) :
    (writeList space items).dropWhile isBlank = writeList space (trimStart items) := by
  cases items with
  | nil => rfl
  | cons item rest =>
      cases item with
      | element name attributes content =>
          rw [trimStart, writeList, write]
          · rfl
          · simp
      | text value =>
          have filled := all_escape (isAllBlank_of_isNormalList normal)
          rw [trimStart, writeList, writeList, write, write,
            Text.dropWhile_append_of_not_all filled, Xml.escape, Xml.escape,
            dropWhile_escape, String.toList_ofList]

theorem trims_trimEnd (normal : isNormalList items) :
    List.Forall₂ Trims items (trimEnd items) := by
  induction items with
  | nil => exact .nil
  | cons item rest ih =>
      have later : isNormalList rest := by
        rw [isNormalList, Bool.and_eq_true] at normal
        exact normal.2
      unfold trimEnd
      split
      · next impossible => cases impossible
      · next value same =>
          cases same
          refine .cons (.text ?_ ?_) .nil
          · rw [String.toList_ofList]
            exact (List.rdropWhile_prefix _ _).subset
          · rw [Text.isAllBlank, String.toList_ofList, Text.all_rdropWhile]
            exact isAllBlank_of_isNormalList normal
      · next same =>
          cases same
          exact .cons .same (ih later)

theorem trims_trimEnds (normal : isNormalList items) :
    List.Forall₂ Trims items (trimEnds items) :=
  have first := trims_trimStart normal
  trims_trans first (trims_trimEnd (isNormalList_of_trims first normal))

theorem all_writeList {item : Content} {rest : List Content}
    (normal : isNormalList (item :: rest)) :
    (writeList space (item :: rest)).all isBlank = false := by
  rw [writeList, List.all_append]
  cases item with
  | text value =>
      rw [write, all_escape (isAllBlank_of_isNormalList normal), Bool.false_and]
  | element name attributes content =>
      rw [write]
      rfl

/-- What is written for an element ends with its end tag. -/
theorem exists_front_of_write (space : Option String) (name : QName)
    (attributes : List Attribute) (content : List Content) :
    ∃ front, (element name attributes content).write space = front ++ ['>'] := by
  rw [write]
  split
  · exact ⟨'<' :: (name.name.toList ++ Xml.writeScope space name.ns ++
      Xml.writeAttributes 0 (attributes.filter (!·.isMeta)) ++ ['/']), by simp⟩
  · exact ⟨'<' :: (name.name.toList ++ Xml.writeScope space name.ns ++
      Xml.writeAttributes 0 (attributes.filter (!·.isMeta)) ++
        '>' :: (writeList name.ns content ++ '<' :: '/' :: name.name.toList)), by simp⟩

/-- Trimming at the end commutes with writing. -/
theorem rdropWhile_writeList (normal : isNormalList items) :
    (writeList space items).rdropWhile isBlank = writeList space (trimEnd items) := by
  induction items with
  | nil => rfl
  | cons item rest ih =>
      have later : isNormalList rest := by
        rw [isNormalList, Bool.and_eq_true] at normal
        exact normal.2
      unfold trimEnd
      split
      · next impossible => cases impossible
      · next value same =>
          cases same
          simp only [writeList, write, List.append_nil]
          rw [Xml.escape, Xml.escape, rdropWhile_escape, String.toList_ofList]
      · next other same =>
          cases same
          cases rest with
          | nil =>
              cases item with
              | text value => exact absurd rfl (other value rfl)
              | element name attributes content =>
                  obtain ⟨front, ends⟩ :=
                    exists_front_of_write space name attributes content
                  simp only [writeList, trimEnd, List.append_nil]
                  rw [ends, List.rdropWhile_concat_neg _ _ _ (by decide)]
          | cons second others =>
              -- What follows is not blank as a whole, so nothing before it is dropped.
              rw [writeList, Text.rdropWhile_append_of_not_all (all_writeList later),
                ih later]
              rfl

/-- Inner markup is what is written for the content without white space at its ends. -/
theorem toList_innerMarkup {e : Element} (normal : e.isNormal) :
    e.innerMarkup.toList = writeList e.name.ns (trimEnds e.content) := by
  have first := isNormalList_of_trims (trims_trimStart normal) normal
  rw [Element.innerMarkup, String.toList_ofList, Text.trimChars,
    dropWhile_writeList normal, ← List.rdropWhile, rdropWhile_writeList first]
  rfl

end Ends

end Content

end XmlRecords
