import Mathlib.Data.List.TakeDrop
import Mathlib.Data.List.TakeWhile
import Mathlib.Tactic.SplitIfs
import XmlRecords.Proofs.DocumentParts
import XmlRecords.Proofs.Spans
import XmlRecords.Xml.InnerMarkup

/-!
# Tags read back

The pieces of markup that are written, each read back with what follows it handed
back: texts with references for the characters that need them, names, quoted values,
and start tags with their attributes.
-/

namespace XmlRecords.Xml

open Text (Stops)

section Escape

/-- Recognise the characters that stay as they are in a quoted value. -/
def isKept (c : Char) : Bool := isAllowed c && (c == ' ' || !isSpace c)

/-- Recognise the allowed characters that are no marks of markup. -/
def isPlain (c : Char) : Bool := isAllowed c && c != '<' && c != '>' && c != '"'

theorem isPlain_iff {c : Char} : isPlain c ↔ isAllowed c ∧ c ≠ '<' ∧ c ≠ '>' ∧ c ≠ '"' := by
  simp [isPlain, and_assoc]

theorem ne_return_of_isKept {c : Char} (kept : isKept c) : (c == '\r') = false := by
  rw [beq_eq_false_iff_ne]
  rintro rfl
  cases kept

theorem blank_of_isKept {c : Char} (kept : isKept c) :
    (if isSpace c then ' ' else c) = c := by
  rw [isKept, Bool.and_eq_true, Bool.or_eq_true, beq_iff_eq, Bool.not_eq_true'] at kept
  split
  · next space => exact (kept.2.resolve_right (by simp [space])).symm
  · rfl

/-- A character is written as a reference that stands for it, or as itself. -/
theorem escapeChar_cases (c : Char) :
    (∃ name, escapeChar c = '&' :: name ∧
      ∀ rest, readReference? (name ++ rest) = some (.char c, rest)) ∨
    escapeChar c = [c] ∧ c ≠ '&' := by
  unfold escapeChar
  split_ifs with lt gt amp apos quot
  · exact .inl ⟨_, rfl, fun rest => lt ▸ rfl⟩
  · exact .inl ⟨_, rfl, fun rest => gt ▸ rfl⟩
  · exact .inl ⟨_, rfl, fun rest => amp ▸ rfl⟩
  · exact .inl ⟨_, rfl, fun rest => apos ▸ rfl⟩
  · exact .inl ⟨_, rfl, fun rest => quot ▸ rfl⟩
  · exact .inr ⟨rfl, amp⟩

/-- No mark of markup is in what is written for a character. -/
theorem isPlain_of_mem_escapeChar {c d : Char} (allowed : isAllowed c)
    (member : d ∈ escapeChar c) : isPlain d := by
  unfold escapeChar at member
  split_ifs at member with lt gt amp apos quot
  case neg =>
    obtain rfl := List.mem_singleton.1 member
    exact isPlain_iff.2 ⟨allowed, lt, gt, quot⟩
  all_goals exact List.all_eq_true.1 (by decide) d member

/-- In a quoted value a text stands for a character: it is a reference to it, or the
character itself where that stays as it is. -/
structure StandsFor (text : List Char) (c : Char) : Prop where
  read : (∃ name, text = '&' :: name ∧
      ∀ rest, readReference? (name ++ rest) = some (.char c, rest)) ∨
    text = [c] ∧ c ≠ '&' ∧ isKept c
  plain : text.all isPlain

theorem standsFor_escapeChar {c : Char} (kept : isKept c) : StandsFor (escapeChar c) c where
  read := (escapeChar_cases c).imp_right fun same => ⟨same.1, same.2, kept⟩
  plain := by
    rw [isKept, Bool.and_eq_true] at kept
    exact List.all_eq_true.2 fun d member => isPlain_of_mem_escapeChar kept.1 member

variable {entities : List Entity} {chars : List Char} {fuel : Nat}

theorem length_le_length_flatMap {write : Char → List Char}
    (filled : ∀ c ∈ chars, 1 ≤ (write c).length) :
    chars.length ≤ (chars.flatMap write).length := by
  induction chars with
  | nil => exact Nat.le_refl 0
  | cons c rest ih =>
      rw [List.forall_mem_cons] at filled
      have later := ih filled.2
      rw [List.flatMap_cons, List.length_append, List.length_cons]
      omega

theorem length_le_length_escape (chars : List Char) :
    chars.length ≤ (chars.flatMap escapeChar).length := by
  refine length_le_length_flatMap fun c _ => ?_
  unfold escapeChar
  split_ifs <;> simp

/-- A value is read back that was written character by character. -/
theorem readValueWith_write
    {enter : Nat → List Char → List Char → Except MarkupDefect (List Char × Nat)}
    {write : Char → List Char} (stands : ∀ c ∈ chars, StandsFor (write c) c)
    (enough : chars.length < fuel) (count : Nat) (buffer : List Char) :
    readValueWith entities false enter fuel count buffer (chars.flatMap write) =
      .ok (chars.reverse ++ buffer, count) := by
  induction chars generalizing fuel buffer with
  | nil =>
      obtain ⟨fuel, rfl⟩ := Nat.exists_eq_add_of_lt enough
      simp [readValueWith]
  | cons c rest ih =>
      obtain ⟨fuel, rfl⟩ : ∃ less, fuel = less + 1 := ⟨fuel - 1, by omega⟩
      rw [List.forall_mem_cons] at stands
      have later := ih stands.2 (by simpa using enough) (c :: buffer)
      rw [List.flatMap_cons, List.reverse_cons, List.append_assoc, List.singleton_append]
      rcases stands.1.read with ⟨name, written, read⟩ | ⟨written, noReference, kept⟩
      · rw [written, List.cons_append, readValueWith, read]
        simpa using later
      · rw [written, List.singleton_append, readValueWith, ne_return_of_isKept kept,
          Bool.false_and, blank_of_isKept kept]
        · simpa using later
        · simpa using noReference

theorem readValue_write {write : Char → List Char}
    (stands : ∀ c ∈ chars, StandsFor (write c) c) (count : Nat) :
    readValue entities maxEntityLevels count [] (chars.flatMap write) =
      .ok (chars.reverse, count) := by
  have enough : chars.length ≤ (chars.flatMap write).length := by
    refine length_le_length_flatMap fun c member => ?_
    rcases (stands c member).read with ⟨name, written, _⟩ | ⟨written, _⟩
    · rw [written, List.length_cons]
      omega
    · rw [written, List.length_singleton]
  have outside : decide (9 + 1 < maxEntityLevels) = false := rfl
  rw [maxEntityLevels, readValue, outside,
    readValueWith_write stands (Nat.lt_succ_of_le enough), List.append_nil]

theorem pushLiteral_eq_cons {c : Char} {buffer : List Char} (other : c ≠ '\r')
    (front : '\r' ∉ buffer) (last : Bool) : pushLiteral c last buffer = c :: buffer := by
  unfold pushLiteral
  rw [beq_eq_false_iff_ne.2 other, Bool.and_false]
  split
  · next rest =>
      exact absurd List.mem_cons_self front
  · rfl

/-- Text is read back that has no carriage returns. -/
theorem readTextWith_escape
    {enter : Progress → List Char → Except MarkupDefect Progress}
    (noReturn : '\r' ∉ chars) (enough : chars.length < fuel) (exact' : Bool)
    {buffer : List Char} (front : '\r' ∉ buffer) (p : Progress) :
    readTextWith entities false enter fuel exact' buffer p (chars.flatMap escapeChar) =
      .ok (p.addBuffer (chars.reverse ++ buffer)) := by
  induction chars generalizing fuel exact' buffer with
  | nil =>
      obtain ⟨fuel, rfl⟩ := Nat.exists_eq_add_of_lt enough
      simp [readTextWith]
  | cons c rest ih =>
      obtain ⟨fuel, rfl⟩ : ∃ less, fuel = less + 1 := ⟨fuel - 1, by omega⟩
      rw [List.mem_cons, not_or] at noReturn
      have pushed : '\r' ∉ c :: buffer := by
        rw [List.mem_cons, not_or]
        exact ⟨noReturn.1, front⟩
      have later := fun exact' => ih noReturn.2 (by simpa using enough) exact' pushed
      rw [List.flatMap_cons, List.reverse_cons, List.append_assoc, List.singleton_append]
      rcases escapeChar_cases c with ⟨name, written, read⟩ | ⟨written, noReference⟩
      · rw [written, List.cons_append, readTextWith, read]
        exact later true
      · rw [written, List.singleton_append, readTextWith,
          pushLiteral_eq_cons (Ne.symm noReturn.1) front, ite_self]
        · exact later false
        · exact noReference

end Escape

section Labels

variable {rest : List Char}

/-- A name as it is written, behind its label if it has one. -/
def Label.text (label : Label) : List Char :=
  if label.label = "" then label.base.toList
  else label.label.toList ++ ':' :: label.base.toList

/-- The name can be written, and its label if it has one. -/
structure Label.IsWritable (label : Label) : Prop where
  front : label.label = "" ∨ isBase label.label
  base : isBase label.base

theorem isNameChar_of_isBase {name : String} (base : isBase name) :
    ∀ c ∈ name.toList, isNameChar c ∧ c ≠ ':' := by
  rw [isBase, Bool.and_eq_true] at base
  intro c member
  simpa using List.all_eq_true.1 base.2 c member

theorem exists_cons_of_isBase {name : String} (base : isBase name) :
    ∃ first others, name.toList = first :: others ∧ isNameStart first := by
  rw [isBase, Bool.and_eq_true] at base
  cases letters : name.toList with
  | nil =>
      rw [letters] at base
      cases base.1
  | cons first others =>
      rw [letters] at base
      exact ⟨first, others, rfl, base.1⟩

theorem Label.IsWritable.isNameChar {label : Label} (writable : label.IsWritable) :
    ∀ c ∈ label.text, isNameChar c := by
  have base := fun c member => (isNameChar_of_isBase writable.base c member).1
  rw [Label.text]
  split
  · exact base
  · next labelled =>
      have front := isNameChar_of_isBase (writable.front.resolve_left labelled)
      intro c member
      rcases List.mem_append.1 member with member | member
      · exact (front c member).1
      · rcases List.mem_cons.1 member with rfl | member
        · rfl
        · exact base c member

theorem Label.IsWritable.exists_cons {label : Label} (writable : label.IsWritable) :
    ∃ first others, label.text = first :: others ∧ isNameStart first := by
  rw [Label.text]
  split
  · exact exists_cons_of_isBase writable.base
  · next labelled =>
      obtain ⟨first, others, letters, starts⟩ :=
        exists_cons_of_isBase (writable.front.resolve_left labelled)
      exact ⟨first, _, by rw [letters, List.cons_append], starts⟩

theorem starts_of_isBase {name : String} (base : isBase name) (default : Bool) :
    (name.toList.head?.map isNameStart).getD default := by
  obtain ⟨first, others, letters, starts⟩ := exists_cons_of_isBase base
  rw [letters]
  exact starts

/-- A name is read back with its label. -/
theorem readLabel_text {label : Label} (writable : label.IsWritable)
    (stops : Stops isNameChar rest) :
    readLabel (label.text ++ rest) = .ok (label, rest) := by
  obtain ⟨label, base⟩ := label
  have isBase' : isBase base := writable.base
  have single : ¬ base.toList.contains ':' := by
    rw [List.contains_iff_mem]
    exact fun member => (isNameChar_of_isBase isBase' ':' member).2 rfl
  have starts := starts_of_isBase isBase' false
  rw [readLabel, Text.takeWhile_append_of_stops writable.isNameChar stops,
    Text.dropWhile_append_of_stops writable.isNameChar stops,
    List.span_eq_takeWhile_dropWhile, Label.text]
  by_cases plain : label = ""
  · have whole : ∀ c ∈ base.toList, (c != ':') = true :=
      fun c member => bne_iff_ne.2 (isNameChar_of_isBase isBase' c member).2
    subst plain
    rw [if_pos rfl, List.takeWhile_eq_self_iff.2 whole, List.dropWhile_eq_nil_iff.2 whole]
    simp only [single, starts, List.head?_nil, Option.map_none, Option.getD_none,
      Bool.and_self, if_true, String.ofList_toList]
    rfl
  · have labelled : isBase label := writable.front.resolve_left plain
    have whole : ∀ c ∈ label.toList, (c != ':') = true :=
      fun c member => bne_iff_ne.2 (isNameChar_of_isBase labelled c member).2
    have stops' : Stops (· != ':') (':' :: base.toList) := Text.stops_cons.2 rfl
    rw [if_neg plain, Text.takeWhile_append_of_stops whole stops',
      Text.dropWhile_append_of_stops whole stops']
    simp only [single, starts, starts_of_isBase labelled, Bool.and_self, if_true,
      String.ofList_toList]
    rfl

end Labels

section Tags

variable {rest : List Char}

/-- An attribute with a text between quotation marks, behind a blank. -/
def writeQuoted (a : Label × List Char) : List Char :=
  ' ' :: (a.1.text ++ '=' :: '"' :: (a.2 ++ ['"']))

/-- The attribute can be handed back as it stands between quotation marks. -/
structure IsQuotable (a : Label × List Char) : Prop where
  name : a.1.IsWritable
  plain : ∀ c ∈ a.2, isPlain c

theorem isPlain_of_mem_escape {text : String} (allowed : ∀ c ∈ text.toList, isAllowed c) :
    ∀ c ∈ escape text, isPlain c := by
  intro c member
  obtain ⟨d, member, inside⟩ := List.mem_flatMap.1 member
  exact isPlain_of_mem_escapeChar (allowed d member) inside

/-- A quoted value is handed back as it is written. -/
theorem readQuoted_quote {value : List Char} (inside : '"' ∉ value) :
    readQuoted ('"' :: (value ++ '"' :: rest)) = .ok (value, rest) := by
  have each : ∀ c ∈ value, (c != '"') = true := by
    intro c member
    rw [bne_iff_ne]
    rintro rfl
    exact inside member
  have stops : Stops (· != '"') ('"' :: rest) := Text.stops_cons.2 rfl
  have quote : readQuote ('"' :: (value ++ '"' :: rest)) = .ok ('"', value ++ '"' :: rest) :=
    rfl
  rw [readQuoted, quote]
  dsimp only [bind, Except.bind]
  rw [List.span_eq_takeWhile_dropWhile, Text.takeWhile_append_of_stops each stops,
    Text.dropWhile_append_of_stops each stops]
  rfl

theorem readAttribute_write {a : Label × List Char} (quotable : IsQuotable a)
    (rest : List Char) :
    readAttribute (a.1.text ++ '=' :: '"' :: (a.2 ++ '"' :: rest)) = .ok (a, rest) := by
  have plain := fun c member => isPlain_iff.1 (quotable.plain c member)
  have noQuote : '"' ∉ a.2 := fun member => (plain _ member).2.2.2 rfl
  have noTag : a.2.contains '<' = false := by
    rw [← Bool.not_eq_true, List.contains_iff_mem]
    exact fun member => (plain _ member).2.1 rfl
  have allowed : a.2.any (!isAllowed ·) = false := by
    rw [List.any_eq_false]
    intro c member
    simp [(plain c member).1]
  have stops : Stops isNameChar ('=' :: '"' :: (a.2 ++ '"' :: rest)) :=
    Text.stops_cons.2 rfl
  have equals : requireMark "=" (skipSpace ('=' :: '"' :: (a.2 ++ '"' :: rest))) =
      .ok ('"' :: (a.2 ++ '"' :: rest)) := rfl
  have quoted : readQuoted (skipSpace ('"' :: (a.2 ++ '"' :: rest))) = .ok (a.2, rest) :=
    readQuoted_quote noQuote
  rw [readAttribute, readLabel_text quotable.name stops]
  dsimp only [bind, Except.bind]
  rw [equals]
  dsimp only
  rw [quoted]
  dsimp only
  rw [noTag, allowed]
  rfl

theorem not_mark_of_isNameStart {c : Char} (starts : isNameStart c) :
    isSpace c = false ∧ c ∉ ['/', '>', '!', '?', '<'] := by
  constructor
  · rw [isSpace, ← Bool.not_eq_true]
    intro space
    simp only [Bool.or_eq_true, beq_iff_eq] at space
    obtain ((rfl | rfl) | rfl) | rfl := space
    all_goals cases starts
  · intro member
    simp only [List.mem_cons, List.not_mem_nil, or_false] at member
    obtain rfl | rfl | rfl | rfl | rfl := member
    all_goals cases starts

/-- Behind a blank and the beginning of a name there is an attribute. -/
theorem readTagRest_blank (label : Label) (fuel : Nat) (done : List (Label × List Char))
    {first : Char} (starts : isNameStart first) (text : List Char) :
    readTagRest label (fuel + 1) done (' ' :: first :: text) =
      (readAttribute (first :: text)).bind fun found =>
        readTagRest label fuel (found.1 :: done) found.2 := by
  obtain ⟨noSpace, noMark⟩ := not_mark_of_isNameStart starts
  have skipped : skipSpace (' ' :: first :: text) = first :: text := by
    rw [skipSpace, List.dropWhile_cons_of_pos rfl,
      List.dropWhile_cons_of_neg (by simp [noSpace])]
  rw [readTagRest, skipped]
  · split
    · next impossible => cases impossible
    · next same =>
        cases same
        simp at noMark
    · next same =>
        cases same
        simp at noMark
    · next same =>
        cases same
        split
        · next isBlank =>
            rw [List.head?_cons, beq_iff_eq, Option.some.injEq] at isBlank
            rw [← isBlank] at noSpace
            cases noSpace
        · rfl
  · simp

/-- The attributes of a start tag are handed back as they are written. -/
theorem readTagRest_write (label : Label) {quoted : List (Label × List Char)}
    (quotable : ∀ a ∈ quoted, IsQuotable a) (fuel : Nat)
    (done : List (Label × List Char)) :
    readTagRest label (fuel + quoted.length) done (quoted.flatMap writeQuoted ++ rest) =
      readTagRest label fuel (quoted.reverse ++ done) rest := by
  induction quoted generalizing done with
  | nil => rfl
  | cons a others ih =>
      rw [List.forall_mem_cons] at quotable
      obtain ⟨first, back, letters, starts⟩ := quotable.1.name.exists_cons
      have behind := readAttribute_write quotable.1 (others.flatMap writeQuoted ++ rest)
      rw [letters, List.cons_append] at behind
      have whole : (a :: others).flatMap writeQuoted ++ rest =
          ' ' :: first :: (back ++ '=' :: '"' :: (a.2 ++
            '"' :: (others.flatMap writeQuoted ++ rest))) := by
        simp [writeQuoted, letters]
      rw [whole, List.length_cons, ← Nat.add_assoc, readTagRest_blank _ _ _ starts, behind]
      dsimp only [Except.bind]
      rw [ih quotable.2, List.reverse_cons, List.append_assoc]
      rfl

/-- How a start tag ends in markup. -/
def TagEnd.mark : TagEnd → List Char
  | .start => ['>']
  | .empty => ['/', '>']
  | .cut => []

theorem readTagRest_mark (label : Label) (fuel : Nat) (done : List (Label × List Char))
    {ending : TagEnd} (whole : ending ≠ .cut) :
    readTagRest label (fuel + 1) done (ending.mark ++ rest) =
      .ok (⟨label, done.reverse, ending⟩, rest) := by
  cases ending with
  | start => rfl
  | empty => rfl
  | cut => exact absurd rfl whole

/-- A start tag is handed back as it is written. -/
theorem readStartTag_write {name : String} (base : isBase name)
    {quoted : List (Label × List Char)} (quotable : ∀ a ∈ quoted, IsQuotable a)
    {ending : TagEnd} (whole : ending ≠ .cut) {fuel : Nat} (enough : quoted.length < fuel)
    (rest : List Char) :
    readStartTag fuel
        (name.toList ++ (quoted.flatMap writeQuoted ++ (ending.mark ++ rest))) =
      .ok (⟨⟨"", name⟩, quoted, ending⟩, rest) := by
  obtain ⟨fuel, rfl⟩ : ∃ less, fuel = less + 1 + quoted.length :=
    ⟨fuel - 1 - quoted.length, by omega⟩
  have written : Label.IsWritable ⟨"", name⟩ := ⟨.inl rfl, base⟩
  have stops : Stops isNameChar (quoted.flatMap writeQuoted ++ (ending.mark ++ rest)) := by
    cases quoted with
    | nil =>
        cases ending with
        | start => exact Text.stops_cons.2 rfl
        | empty => exact Text.stops_cons.2 rfl
        | cut => exact absurd rfl whole
    | cons a others => exact Text.stops_cons.2 rfl
  have label := readLabel_text written stops
  have letters : Label.text ⟨"", name⟩ = name.toList := if_pos rfl
  rw [letters] at label
  rw [readStartTag, label]
  dsimp only [bind, Except.bind]
  rw [if_neg (by decide), readTagRest_write _ quotable, List.append_nil,
    readTagRest_mark _ _ _ whole, List.reverse_reverse]

/-- An end tag is handed back as it is written. -/
theorem readEndTag_write {name : String} (base : isBase name) :
    readEndTag (name.toList ++ '>' :: rest) = .ok (⟨"", name⟩, rest) := by
  have written : Label.IsWritable ⟨"", name⟩ := ⟨.inl rfl, base⟩
  have stops : Stops isNameChar ('>' :: rest) := Text.stops_cons.2 rfl
  have label := readLabel_text written stops
  have letters : Label.text ⟨"", name⟩ = name.toList := if_pos rfl
  rw [letters] at label
  rw [readEndTag, label]
  rfl

/-- Attributes with what is written for their values, character by character. -/
def quoteWith (write : Char → List Char) (raw : List RawAttribute) :
    List (Label × List Char) :=
  raw.map fun a => (a.name, a.value.toList.flatMap write)

/-- The attribute can be written character by character and read back. -/
structure RawAttribute.IsWritable (write : Char → List Char) (a : RawAttribute) : Prop where
  name : a.name.IsWritable
  value : ∀ c ∈ a.value.toList, StandsFor (write c) c

variable {write : Char → List Char} {raw : List RawAttribute}

theorem isQuotable_quoteWith (writable : ∀ a ∈ raw, a.IsWritable write) :
    ∀ a ∈ quoteWith write raw, IsQuotable a := by
  intro quoted member
  obtain ⟨a, isRaw, rfl⟩ := List.mem_map.1 member
  refine ⟨(writable a isRaw).name, fun d inside => ?_⟩
  obtain ⟨c, within, inside⟩ := List.mem_flatMap.1 inside
  exact List.all_eq_true.1 ((writable a isRaw).value c within).plain d inside

/-- The values of attributes are read back. -/
theorem readValues_quoteWith {entities : List Entity}
    (writable : ∀ a ∈ raw, a.IsWritable write) (count : Nat) :
    readValues entities maxEntityLevels count (quoteWith write raw) = .ok (raw, count) := by
  induction raw with
  | nil => rfl
  | cons a others ih =>
      rw [List.forall_mem_cons] at writable
      rw [quoteWith, List.map_cons, readValues, readValue_write writable.1.value]
      dsimp only [bind, Except.bind]
      rw [← quoteWith, ih writable.2]
      dsimp only
      rw [List.reverse_reverse, String.ofList_toList]
      rfl

end Tags

end XmlRecords.Xml
