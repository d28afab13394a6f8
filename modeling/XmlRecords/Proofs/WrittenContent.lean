import XmlRecords.Proofs.Collecting
import XmlRecords.Proofs.ContentSteps
import XmlRecords.Proofs.WrittenScopes

/-!
# Content read back

Content that is written inside of an element is read back, item by item, onto what has
been read of the element.  Attributes that carry no data are not written.
-/

namespace XmlRecords

namespace Content

mutual

/-- An item of content without the attributes that carry no data. -/
def withoutMeta : Content → Content
  | .text value => .text value
  | .element name attributes content =>
      .element name (attributes.filter (!·.isMeta)) (withoutMetaList content)

/-- Items of content without the attributes that carry no data. -/
def withoutMetaList : List Content → List Content
  | [] => []
  | item :: items => item.withoutMeta :: withoutMetaList items

end

mutual

/-- Recognise items that stay what they are when they are written under a default
namespace: there are no carriage returns in text, attributes are steady, and an element
in another namespace than the one around it has a namespace, and one that stays. -/
def isSteady (space : Option String) : Content → Bool
  | .text value => !value.toList.contains '\r'
  | .element name attributes content =>
      (name.ns == space || name.ns.any (·.toList.all Xml.isKept)) &&
        attributes.all (fun a => a.isMeta || a.isSteady) && areSteady name.ns content

/-- Recognise items that all stay what they are when they are written. -/
def areSteady (space : Option String) : List Content → Bool
  | [] => true
  | item :: items => item.isSteady space && areSteady space items

end

end Content

namespace Xml

open Content (startsWithText)
open Text (Stops)

mutual

/-- A tree as content, with every run of text as an item. -/
def Tree.bare : Tree → Content
  | .text value => .text value
  | .element name attributes _ content => .element name attributes (Tree.bareList content)

/-- Trees as content, with every run of text as an item. -/
def Tree.bareList : List Tree → List Content
  | [] => []
  | item :: items => item.bare :: Tree.bareList items

end

section Readers

variable {entities : List Entity} {levels fuel level : Nat}
  {enter : Progress → List Char → Except MarkupDefect Progress} {tagged : Bool}
  {p next : Progress} {rest : List Char}

/-- Behind an end tag the reader goes on in the element around, if it began that one. -/
theorem readContentWith_endTag {name : String} (base : isBase name)
    (closed : closeTag p ⟨"", name⟩ = .ok next) :
    readContentWith entities levels enter (fuel + 1) level true p
        ('<' :: '/' :: (name.toList ++ '>' :: rest)) =
      if level = 0 then .ok (next, rest)
      else readContentWith entities levels enter fuel (level - 1) true next rest :=
  readContentWith_end (readEndTag_write base) closed

theorem closeTag_of_opened {top : Open} {others : List Open} {label : Label}
    (opened : p.opened = top :: others) (labelled : top.label = label)
    (waiting : p.waiting = []) :
    closeTag p label =
      .ok (({ p with opened := others }.endRun).addElement
        (.element top.name top.attributes top.scope top.content.reverse)) := by
  rw [closeTag, opened]
  dsimp only
  rw [if_pos labelled, Progress.closeElement, opened]
  dsimp only
  rw [Progress.resolveWaiting, waiting]
  rfl

theorem mem_of_occursIn {mark : String} {text : List Char} {c : Char}
    (occurs : occursIn mark text) (member : c ∈ mark.toList) : c ∈ text := by
  induction text with
  | nil =>
      rw [occursIn, String.isEmpty_iff] at occurs
      simp [occurs] at member
  | cons first rest ih =>
      rw [occursIn, Bool.or_eq_true, List.isPrefixOf_iff_prefix] at occurs
      rcases occurs with front | later
      · exact front.subset member
      · exact List.mem_cons_of_mem _ (ih later)

/-- Text is read up to the next tag, as one run. -/
theorem readContentWith_text {value : String} (filled : value.toList ≠ [])
    (allowed : ∀ c ∈ value.toList, isAllowed c) (noReturn : '\r' ∉ value.toList)
    (behind : List Char) :
    readContentWith entities maxEntityLevels enter (fuel + 1) level tagged p
        (escape value ++ '<' :: behind) =
      readContentWith entities maxEntityLevels enter fuel level tagged (p.addText value)
        ('<' :: behind) := by
  have plain := fun c member => isPlain_iff.1 (isPlain_of_mem_escape allowed c member)
  have enough := length_le_length_escape value.toList
  have isRun : ∀ c ∈ escape value, (c != '<') = true :=
    fun c member => bne_iff_ne.2 (plain c member).2.1
  have stops : Stops (· != '<') ('<' :: behind) := Text.stops_cons.2 rfl
  have noMark : occursIn "]]>" (escape value) = false := by
    rw [← Bool.not_eq_true]
    exact fun occurs => (plain '>' (mem_of_occursIn occurs (by simp))).2.2.1 rfl
  have noForbidden : (escape value).any (!isAllowed ·) = false := by
    rw [List.any_eq_false]
    intro c member
    simp [(plain c member).1]
  have outside : decide (maxEntityLevels < maxEntityLevels) = false := rfl
  have added : ∀ p : Progress,
      p.addBuffer (value.toList.reverse ++ []) = p.addText value := by
    intro p
    rw [Progress.addBuffer, List.append_nil, List.isEmpty_reverse,
      List.isEmpty_eq_false_iff.2 filled, List.reverse_reverse, String.ofList_toList]
    rfl
  have written : escape value ≠ [] := by
    refine fun nothing => filled ?_
    rw [escape] at nothing
    rw [nothing, List.length_nil] at enough
    exact List.length_eq_zero_iff.1 (Nat.le_zero.1 enough)
  rw [readContentWith_run written isRun stops, noMark, noForbidden, outside, escape,
    readTextWith_escape noReturn (Nat.lt_succ_of_le enough) false (by simp), added]
  rfl

end Readers

section Elements

variable {entities : List Entity} {p : Progress} {name : QName}
  {attributes : List Attribute} {space : Option String}

/-- An element as it is opened when it was written. -/
def openWritten (p : Progress) (space : Option String) (name : QName)
    (attributes : List Attribute) : Open :=
  ⟨⟨"", name.name⟩, name, attributes, elementScope p.scope space name.ns attributes, []⟩

/-- What has to hold of an element, and of the attributes of its tag, so that the tag can
be read back. -/
structure CanOpen (entities : List Entity) (p : Progress) (space : Option String)
    (name : QName) (attributes : List Attribute) (quoted : List (Label × List Char)) :
    Prop where
  named : name.Sound
  own : Attribute.AreSound attributes
  steady : ∀ a ∈ attributes, a.isSteady
  keeps : name.ns = none → space = none
  inherits : p.scope.lookup "" = space
  waiting : p.waiting = []
  quotable : ∀ a ∈ quoted, IsQuotable a
  values : readValues entities maxEntityLevels p.references quoted =
    .ok (rawScope space name.ns ++ rawAttributes 0 attributes, p.references)

/-- The attributes of the tag of an element as they are written. -/
def quotedAttributes (space : Option String) (name : QName) (attributes : List Attribute) :
    List (Label × List Char) :=
  quoteWith escapeChar (rawScope space name.ns ++ rawAttributes 0 attributes)

theorem write_quotedAttributes (space : Option String) (name : QName)
    (attributes : List Attribute) :
    (quotedAttributes space name attributes).flatMap writeQuoted =
      writeScope space name.ns ++ writeAttributes 0 attributes := by
  rw [quotedAttributes, quoteWith, List.map_append, List.flatMap_append, ← quoteWith,
    ← quoteWith, write_rawScope, write_rawAttributes]

/-- A tag can be read back as it is written. -/
theorem canOpen_of_isKept (entities : List Entity) (named : name.Sound)
    (own : Attribute.AreSound attributes) (steady : ∀ a ∈ attributes, a.isSteady)
    (kept : name.ns = space ∨ ∃ ns, name.ns = some ns ∧ ∀ c ∈ ns.toList, isKept c)
    (inherits : p.scope.lookup "" = space) (waiting : p.waiting = []) :
    CanOpen entities p space name attributes (quotedAttributes space name attributes) := by
  have writable : ∀ a ∈ rawScope space name.ns ++ rawAttributes 0 attributes,
      a.IsWritable escapeChar := by
    refine List.forall_mem_append.2 ⟨isWritable_rawScope fun differs ns isNamed c member => ?_,
      isWritable_rawAttributes own.each steady 0⟩
    obtain ⟨other, isOther, each⟩ := kept.resolve_left differs
    rw [isNamed, Option.some.injEq] at isOther
    exact standsFor_escapeChar (each c (isOther ▸ member))
  refine ⟨named, own, steady, fun isNone => ?_, inherits, waiting,
    isQuotable_quoteWith writable, readValues_quoteWith writable _⟩
  rcases kept with same | ⟨ns, isNamed, _⟩
  · rw [← same, isNone]
  · rw [isNone] at isNamed
    cases isNamed

variable {quoted : List (Label × List Char)}

theorem CanOpen.openElement
    (canOpen : CanOpen entities p space name attributes quoted) :
    (p.await (rawScope space name.ns ++ rawAttributes 0 attributes)).openElement
        ⟨"", name.name⟩ =
      .ok { p.endRun with
        opened := openWritten p space name attributes :: p.opened
        waiting := [] } := by
  have waiting : (p.await (rawScope space name.ns ++ rawAttributes 0 attributes)).waiting =
      rawScope space name.ns ++ rawAttributes 0 attributes := by
    rw [Progress.await, canOpen.waiting, List.nil_append]
  exact openElement_write canOpen.named canOpen.own canOpen.steady canOpen.inherits
    canOpen.keeps waiting

theorem CanOpen.addTag_start
    (canOpen : CanOpen entities p space name attributes quoted) :
    addTag entities maxEntityLevels p ⟨⟨"", name.name⟩, quoted, .start⟩ =
      .ok { p.endRun with
        opened := openWritten p space name attributes :: p.opened
        waiting := [] } := by
  rw [addTag, canOpen.values]
  exact canOpen.openElement

theorem CanOpen.addTag_empty
    (canOpen : CanOpen entities p space name attributes quoted) :
    addTag entities maxEntityLevels p ⟨⟨"", name.name⟩, quoted, .empty⟩ =
      .ok ({ p.endRun with waiting := [] }.addElement (.element name attributes
        (elementScope p.scope space name.ns attributes) [])) := by
  rw [addTag, canOpen.values]
  dsimp only [bind, Except.bind]
  rw [canOpen.openElement]
  rfl

theorem length_le_flatMap_writeQuoted (quoted : List (Label × List Char)) :
    quoted.length ≤ (quoted.flatMap writeQuoted).length := by
  induction quoted with
  | nil => exact Nat.le_refl 0
  | cons a rest ih =>
      rw [List.flatMap_cons, List.length_append, List.length_cons, writeQuoted,
        List.length_cons]
      omega

/-- The start tag of a written element is read back. -/
theorem CanOpen.readStartTag (canOpen : CanOpen entities p space name attributes quoted)
    {fuel : Nat} {ending : TagEnd} (whole : ending ≠ .cut)
    (enough : (quoted.flatMap writeQuoted).length < fuel) (rest : List Char) :
    readStartTag fuel
        (name.name.toList ++ (quoted.flatMap writeQuoted ++ (ending.mark ++ rest))) =
      .ok (⟨⟨"", name.name⟩, quoted, ending⟩, rest) :=
  readStartTag_write canOpen.named.base canOpen.quotable whole
    (Nat.lt_of_le_of_lt (length_le_flatMap_writeQuoted quoted) enough) rest

theorem CanOpen.readContentWith
    (canOpen : CanOpen entities p space name attributes quoted)
    {enter : Progress → List Char → Except MarkupDefect Progress} {fuel level : Nat}
    {ending : TagEnd} (whole : ending ≠ .cut) {rest : List Char}
    (enough : (quoted.flatMap writeQuoted).length < fuel) :
    readContentWith entities maxEntityLevels enter (fuel + 1) level true p
        ('<' :: (name.name.toList ++ (quoted.flatMap writeQuoted ++
          (ending.mark ++ rest)))) =
      (addTag entities maxEntityLevels p ⟨⟨"", name.name⟩, quoted, ending⟩).bind
        fun next => Xml.readContentWith entities maxEntityLevels enter fuel
          (if ending = .start then level + 1 else level) true next rest := by
  obtain ⟨first, back, letters, starts⟩ := exists_cons_of_isBase canOpen.named.base
  have read := canOpen.readStartTag whole enough rest
  rw [letters, List.cons_append] at read
  rw [letters, List.cons_append, readContentWith_tag p starts, read]
  rfl

section Whole

variable {enter : Progress → List Char → Except MarkupDefect Progress}
  {fuel less level : Nat} {rest : List Char}

/-- An element without content is read back from its tag. -/
theorem CanOpen.readContentWith_empty
    (canOpen : CanOpen entities p space name attributes quoted)
    (enough : (quoted.flatMap writeQuoted).length < fuel) :
    Xml.readContentWith entities maxEntityLevels enter (fuel + 1) level true p
        ('<' :: (name.name.toList ++ (quoted.flatMap writeQuoted ++
          (TagEnd.empty.mark ++ rest)))) =
      Xml.readContentWith entities maxEntityLevels enter fuel level true
        ({ p.endRun with waiting := [] }.addElement (.element name attributes
          (elementScope p.scope space name.ns attributes) [])) rest := by
  rw [canOpen.readContentWith (by simp) enough, canOpen.addTag_empty]
  rfl

/-- An element is read back whose content is read back up to its end tag. -/
theorem CanOpen.readContentWith_full
    (canOpen : CanOpen entities p space name attributes quoted)
    (enough : (quoted.flatMap writeQuoted).length < fuel) {inside : List Char}
    {trees : List Tree} {running : Bool}
    (read : Xml.readContentWith entities maxEntityLevels enter fuel (level + 1) true
        { p.endRun with
          opened := openWritten p space name attributes :: p.opened
          waiting := [] }
        (inside ++ '<' :: '/' :: (name.name.toList ++ '>' :: rest)) =
      Xml.readContentWith entities maxEntityLevels enter (less + 1) (level + 1) true
        { p.endRun with
          opened := { openWritten p space name attributes with
            content := trees.reverse } :: p.opened
          running
          waiting := [] }
        ('<' :: '/' :: (name.name.toList ++ '>' :: rest))) :
    Xml.readContentWith entities maxEntityLevels enter (fuel + 1) level true p
        ('<' :: (name.name.toList ++ (quoted.flatMap writeQuoted ++ (TagEnd.start.mark ++
          (inside ++ '<' :: '/' :: (name.name.toList ++ '>' :: rest)))))) =
      Xml.readContentWith entities maxEntityLevels enter less level true
        ({ p.endRun with waiting := [] }.addElement (.element name attributes
          (elementScope p.scope space name.ns attributes) trees)) rest := by
  rw [canOpen.readContentWith (by simp) enough, canOpen.addTag_start]
  refine Eq.trans read ?_
  rw [readContentWith_endTag canOpen.named.base (closeTag_of_opened rfl rfl rfl),
    if_neg (Nat.succ_ne_zero level), Nat.add_sub_cancel]
  dsimp only [openWritten]
  rw [List.reverse_reverse]
  rfl

end Whole

end Elements

section Items

variable (entities : List Entity)
  (enter : Progress → List Char → Except MarkupDefect Progress)

theorem areSound_filter {attributes : List Attribute} (own : Attribute.AreSound attributes)
    (keep : Attribute → Bool) : Attribute.AreSound (attributes.filter keep) where
  each := fun a member => own.each a (List.mem_filter.1 member).1
  distinct := own.distinct.sublist (List.filter_sublist.map _)

/-- The tag of a steady element can be read back, without the attributes that carry no
data. -/
theorem canOpen_of_isSteady {p : Progress} {space : Option String} {name : QName}
    {attributes : List Attribute} {content : List Content} (named : name.Sound)
    (own : Attribute.AreSound attributes)
    (steady : (Content.element name attributes content).isSteady space)
    (inherits : p.scope.lookup "" = space) (waiting : p.waiting = []) :
    CanOpen entities p space name (attributes.filter (!·.isMeta))
      (quotedAttributes space name (attributes.filter (!·.isMeta))) := by
  simp only [Content.isSteady, Bool.and_eq_true, Bool.or_eq_true, beq_iff_eq,
    Option.any_eq_true, List.all_eq_true] at steady
  obtain ⟨⟨kept, each⟩, _⟩ := steady
  refine canOpen_of_isKept entities named (areSound_filter own _) ?_ kept inherits waiting
  intro a member
  obtain ⟨member, noMeta⟩ := List.mem_filter.1 member
  rw [Bool.not_eq_true'] at noMeta
  exact (each a member).resolve_left (by simp [noMeta])

theorem write_element (space : Option String) (name : QName) (attributes : List Attribute)
    (content : List Content) (rest : List Char) :
    (Content.element name attributes content).write space ++ rest =
      '<' :: (name.name.toList ++
        ((quotedAttributes space name (attributes.filter (!·.isMeta))).flatMap writeQuoted ++
          if content.isEmpty then TagEnd.empty.mark ++ rest
          else TagEnd.start.mark ++ (Content.writeList name.ns content ++
            '<' :: '/' :: (name.name.toList ++ '>' :: rest)))) := by
  rw [Content.write, write_quotedAttributes]
  split
  · simp [TagEnd.mark]
  · simp [TagEnd.mark]

/-- Where no text follows, a tag does. -/
theorem exists_tag_of_not_text {items : List Content} (space : Option String)
    (noText : startsWithText items = false) (behind : List Char) :
    ∃ text, Content.writeList space items ++ '<' :: behind = '<' :: text := by
  cases items with
  | nil => exact ⟨behind, rfl⟩
  | cons item rest =>
      cases item with
      | text value => cases noText
      | element name attributes content =>
          rw [Content.writeList, List.append_assoc, write_element]
          exact ⟨_, rfl⟩

mutual

/-- A written item is read back, in front of whatever follows it. -/
theorem exists_tree_of_write (item : Content) {space : Option String} (top : Open)
    (others : List Open) (root : Option Tree) {running : Bool} (references : Nat)
    {fuel : Nat} (level : Nat) {rest : List Char} (sound : item.Sound)
    (steady : item.isSteady space) (normal : item.isNormal)
    (inherits : top.scope.lookup "" = space)
    (apart : startsWithText [item] → running = false ∧ ∃ behind, rest = '<' :: behind)
    (enough : (item.write space ++ rest).length < fuel) :
    ∃ tree less, tree.bare = item.withoutMeta ∧ rest.length < less ∧
      readContentWith entities maxEntityLevels enter fuel level true
          ⟨top :: others, root, running, references, []⟩ (item.write space ++ rest) =
        readContentWith entities maxEntityLevels enter less level true
          ⟨{ top with content := tree :: top.content } :: others, root,
            startsWithText [item], references, []⟩ rest := by
  cases item with
  | text value =>
      obtain ⟨rfl, behind, rfl⟩ := apart rfl
      obtain ⟨fuel, rfl⟩ : ∃ less, fuel = less + 1 := ⟨fuel - 1, by omega⟩
      cases sound with
      | text allowed =>
          have filled : value.toList ≠ [] := by
            intro nothing
            simp [Content.isNormal, Text.isAllBlank, nothing] at normal
          have noReturn : '\r' ∉ value.toList := by
            simpa [Content.isSteady] using steady
          have short : ('<' :: behind).length < fuel := by
            have some := List.length_pos_iff.2 filled
            have whole := length_le_length_escape value.toList
            rw [Content.write, escape, List.length_append] at enough
            omega
          exact ⟨.text value, fuel, rfl, short,
            readContentWith_text filled allowed noReturn behind⟩
  | element name attributes content =>
      cases sound with
      | element named own inside =>
          obtain ⟨fuel, rfl⟩ : ∃ less, fuel = less + 1 := ⟨fuel - 1, by omega⟩
          have canOpen := canOpen_of_isSteady entities
            (p := ⟨top :: others, root, running, references, []⟩) named own steady
            inherits rfl
          have further : Content.areSteady name.ns content := by
            rw [Content.isSteady, Bool.and_eq_true] at steady
            exact steady.2
          rw [write_element] at enough ⊢
          cases content with
          | nil =>
              rw [List.isEmpty_nil, if_pos rfl] at enough ⊢
              simp only [List.length_cons, List.length_append] at enough
              exact ⟨_, fuel, rfl, by omega, canOpen.readContentWith_empty (by omega)⟩
          | cons first items =>
              rw [List.isEmpty_cons, if_neg Bool.false_ne_true] at enough ⊢
              simp only [List.length_cons, List.length_append] at enough
              have inner : (Content.writeList name.ns (first :: items) ++
                  '<' :: '/' :: (name.name.toList ++ '>' :: rest)).length < fuel := by
                simp only [List.length_cons, List.length_append]
                omega
              obtain ⟨trees, running', less, same, more, read⟩ :=
                exists_trees_of_writeList (first :: items)
                  (openWritten ⟨top :: others, root, running, references, []⟩ space name
                    (attributes.filter (!·.isMeta)))
                  (top :: others) root false references (level + 1) inside further normal
                  (lookup_default_elementScope inherits canOpen.keeps) (by simp) inner
              simp only [List.length_cons, List.length_append] at more
              obtain ⟨less, rfl⟩ : ∃ fewer, less = fewer + 1 := ⟨less - 1, by omega⟩
              dsimp only [openWritten] at read
              rw [List.append_nil] at read
              refine ⟨_, less, ?_, by omega, canOpen.readContentWith_full (by omega) read⟩
              rw [Tree.bare, same, Content.withoutMeta]

/-- Written items are read back up to an end tag. -/
theorem exists_trees_of_writeList (items : List Content) {space : Option String}
    (top : Open) (others : List Open) (root : Option Tree) (running : Bool)
    (references : Nat) {fuel : Nat} (level : Nat) {behind : List Char}
    (sound : ∀ item ∈ items, item.Sound) (steady : Content.areSteady space items)
    (normal : Content.isNormalList items) (inherits : top.scope.lookup "" = space)
    (apart : running → startsWithText items = false)
    (enough : (Content.writeList space items ++ '<' :: behind).length < fuel) :
    ∃ trees running' less, Tree.bareList trees = Content.withoutMetaList items ∧
      behind.length + 1 < less ∧
      readContentWith entities maxEntityLevels enter fuel level true
          ⟨top :: others, root, running, references, []⟩
          (Content.writeList space items ++ '<' :: behind) =
        readContentWith entities maxEntityLevels enter less level true
          ⟨{ top with content := trees.reverse ++ top.content } :: others, root,
            running', references, []⟩ ('<' :: behind) := by
  cases items with
  | nil => exact ⟨[], running, fuel, rfl, enough, rfl⟩
  | cons item rest =>
      rw [List.forall_mem_cons] at sound
      rw [Content.areSteady, Bool.and_eq_true] at steady
      rw [Content.isNormalList, Bool.and_eq_true, Bool.and_eq_true, Bool.not_eq_true',
        Bool.and_eq_false_iff] at normal
      obtain ⟨⟨own, distinct⟩, further⟩ := normal
      rw [Content.startsWithText_cons] at apart
      rw [Content.writeList, List.append_assoc] at enough ⊢
      -- Text is read as one run only if no run is open before it and a tag follows it.
      have follows : startsWithText [item] → running = false ∧
          ∃ text, Content.writeList space rest ++ '<' :: behind = '<' :: text := by
        intro isText
        have noText := distinct.resolve_left (by simp [isText])
        refine ⟨?_, exists_tag_of_not_text space noText behind⟩
        cases running with
        | false => rfl
        | true => exact absurd isText (by simp [apart rfl])
      obtain ⟨tree, between, isItem, more, first⟩ := exists_tree_of_write item top
        others root references level sound.1 steady.1 own inherits follows enough
      obtain ⟨trees, running', less, areRest, more', later⟩ :=
        exists_trees_of_writeList rest { top with content := tree :: top.content } others
          root (startsWithText [item]) references level sound.2 steady.2 further inherits
          (fun isText => distinct.resolve_left (by simp [isText])) more
      refine ⟨tree :: trees, running', less, ?_, more', ?_⟩
      · rw [Tree.bareList, Content.withoutMetaList, isItem, areRest]
      · rw [first, later, List.reverse_cons, List.append_assoc]
        rfl

end

end Items

end Xml

end XmlRecords
