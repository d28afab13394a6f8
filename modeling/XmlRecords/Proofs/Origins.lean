import Mathlib.Data.List.Basic
import Mathlib.Data.Set.Function
import XmlRecords.Graph.Provenance

/-!
# Origins that can be read back

An origin whose name has no opening brace in its local part is what its text is
read as, and only such origins are read.  What is read is written as it was.  So
these origins and the texts that are read belong to each other one to one, whatever
their namespaces are.
-/

namespace XmlRecords

/-- No opening brace, which would begin the namespace of the written name. -/
def QName.Plain (name : QName) : Prop := '{' ∉ name.name.toList

instance (name : QName) : Decidable name.Plain :=
  inferInstanceAs (Decidable (_ ∉ _))

namespace Text

theorem splitOnce_append {mark : Char} {before : List Char}
    (after : List Char) (absent : mark ∉ before) :
    splitOnce mark (before ++ mark :: after) = some (before, after) := by
  induction before with
  | nil => simp [splitOnce]
  | cons c rest ih =>
      rw [List.mem_cons, not_or] at absent
      rw [List.cons_append, splitOnce, if_neg (Ne.symm absent.1), ih absent.2]
      rfl

theorem splitOnce_eq_none_iff {mark : Char} {text : List Char} :
    splitOnce mark text = none ↔ mark ∉ text := by
  induction text with
  | nil => simp [splitOnce]
  | cons c rest ih =>
      rw [splitOnce]
      by_cases same : c = mark
      · simp [same]
      · rw [if_neg same, Option.map_eq_none_iff, ih, List.mem_cons, not_or]
        exact ⟨fun absent => ⟨Ne.symm same, absent⟩, fun absent => absent.2⟩

theorem not_mem_of_splitOnce {mark : Char} {text before after : List Char}
    (split : splitOnce mark text = some (before, after)) : mark ∉ before := by
  induction text generalizing before after with
  | nil => simp [splitOnce] at split
  | cons c rest ih =>
      rw [splitOnce] at split
      by_cases same : c = mark
      · rw [if_pos same] at split
        obtain ⟨rfl, _⟩ : [] = before ∧ rest = after := by simpa using split
        exact List.not_mem_nil
      · rw [if_neg same] at split
        obtain ⟨⟨front, back⟩, found, pair⟩ := Option.map_eq_some_iff.1 split
        obtain ⟨rfl, _⟩ : c :: front = before ∧ back = after := by
          simpa using pair
        rw [List.mem_cons, not_or]
        exact ⟨Ne.symm same, ih found⟩

end Text

namespace Origin

theorem readName?_text {name : QName} (plain : name.Plain) :
    readName? name.text.toList = some name := by
  obtain ⟨title, ns⟩ := name
  cases ns with
  | none =>
      rw [QName.text, readName?, Text.splitOnce_eq_none_iff.2 plain]
      simp
  | some ns =>
      have split : Text.splitOnce '{' (title.toList ++ '{' :: (ns.toList ++ ['}'])) =
          some (title.toList, ns.toList ++ ['}']) :=
        Text.splitOnce_append _ plain
      have letters : (QName.mk title (some ns)).text.toList =
          title.toList ++ '{' :: (ns.toList ++ ['}']) := by
        simp [QName.text, String.toList_append]
      rw [readName?, letters, split]
      simp

theorem plain_of_readName? {text : List Char} {name : QName}
    (read : readName? text = some name) : name.Plain := by
  rw [readName?] at read
  split at read
  · next whole =>
      cases read
      rw [QName.Plain, String.toList_ofList]
      exact Text.splitOnce_eq_none_iff.1 whole
  · next parts =>
      split at read
      · cases read
        rw [QName.Plain, String.toList_ofList]
        exact Text.not_mem_of_splitOnce parts
      · cases read

theorem ofProvenance?_of_splitOnce {text : String} {word rest : List Char}
    (split : Text.splitOnce ' ' text.toList = some (word, rest)) :
    ofProvenance? text = (readName? rest).bind fun name =>
      if word = "element".toList then some (.element name)
      else if word = "attribute".toList then some (.attribute name)
      else none := by
  have noWord : ∀ other : String, ' ' ∉ other.toList → text ≠ other := by
    rintro other absent rfl
    rw [Text.splitOnce_eq_none_iff.2 absent] at split
    cases split
  rw [ofProvenance?, if_neg (noWord _ (by decide)),
    if_neg (noWord _ (by decide)), if_neg (noWord _ (by decide)),
    if_neg (noWord _ (by decide)), split]
  rfl

theorem ofProvenance?_element (name : QName) :
    ofProvenance? (Origin.element name).provenance =
      (readName? name.text.toList).map .element := by
  have absent : ' ' ∉ "element".toList := by decide
  have split : Text.splitOnce ' ' (Origin.element name).provenance.toList =
      some ("element".toList, name.text.toList) := by
    rw [provenance, String.toList_append]
    exact Text.splitOnce_append name.text.toList absent
  rw [ofProvenance?_of_splitOnce split]
  cases readName? name.text.toList <;> rfl

theorem ofProvenance?_attribute (name : QName) :
    ofProvenance? (Origin.attribute name).provenance =
      (readName? name.text.toList).map .attribute := by
  have absent : ' ' ∉ "attribute".toList := by decide
  have split : Text.splitOnce ' ' (Origin.attribute name).provenance.toList =
      some ("attribute".toList, name.text.toList) := by
    rw [provenance, String.toList_append]
    exact Text.splitOnce_append name.text.toList absent
  rw [ofProvenance?_of_splitOnce split]
  cases readName? name.text.toList <;> rfl

/-- Written origins are read back. -/
theorem ofProvenance?_provenance {origin : Origin}
    (plain : ∀ name ∈ origin.name?, name.Plain) :
    ofProvenance? origin.provenance = some origin := by
  cases origin with
  | element name => rw [ofProvenance?_element, readName?_text (plain name rfl), Option.map_some]
  | «attribute» name =>
      rw [ofProvenance?_attribute, readName?_text (plain name rfl), Option.map_some]
  | _ => rfl

theorem plain_of_ofProvenance? {text : String} {origin : Origin}
    (read : ofProvenance? text = some origin) :
    ∀ name ∈ origin.name?, name.Plain := by
  cases split : Text.splitOnce ' ' text.toList with
  | none =>
      have word : origin.name? = none := by
        rw [ofProvenance?, split] at read
        repeat
          split at read
          · cases read
            rfl
        cases read
      simp [word]
  | some parts =>
      rw [ofProvenance?_of_splitOnce split, Option.bind_eq_some_iff] at read
      obtain ⟨name, found, read⟩ := read
      intro other named
      have same : other = name := by
        split at read
        · cases read
          exact (Option.some.inj named).symm
        · split at read
          · cases read
            exact (Option.some.inj named).symm
          · cases read
      exact same ▸ plain_of_readName? found

theorem text_of_readName? {text : List Char} {name : QName}
    (read : readName? text = some name) : name.text.toList = text := by
  rw [readName?] at read
  split at read
  · cases read
    exact String.toList_ofList
  · next before after parts =>
      split at read
      · next closed =>
          cases read
          rw [Text.splitOnce_eq_append parts, ← List.dropLast_append_getLast? _ closed]
          simp [QName.text, String.toList_append]
      · cases read

/-- What is read as an origin is how the origin is written. -/
theorem provenance_of_ofProvenance? {text : String} {origin : Origin}
    (read : ofProvenance? text = some origin) : origin.provenance = text := by
  cases split : Text.splitOnce ' ' text.toList with
  | none =>
      rw [ofProvenance?, split] at read
      repeat
        split at read
        · cases read
          symm
          assumption
      cases read
  | some parts =>
      obtain ⟨word, rest⟩ := parts
      have whole := Text.splitOnce_eq_append split
      rw [ofProvenance?_of_splitOnce split, Option.bind_eq_some_iff] at read
      obtain ⟨name, found, read⟩ := read
      have rest' := text_of_readName? found
      rw [← String.toList_inj, whole]
      split at read
      · next element =>
          cases read
          rw [element, provenance, String.toList_append, rest']
          rfl
      · split at read
        · next «attribute» =>
            cases read
            rw [«attribute», provenance, String.toList_append, rest']
            rfl
        · cases read

/-- An origin that carries no name, or one without an opening brace in its local
part. -/
def Plain (origin : Origin) : Prop := ∀ name ∈ origin.name?, name.Plain

/-- Reading is told by writing: a text is read as an origin exactly if the origin is
plain and written so. -/
theorem ofProvenance?_eq_some_iff {text : String} {origin : Origin} :
    ofProvenance? text = some origin ↔ origin.Plain ∧ origin.provenance = text := by
  constructor
  · intro read
    exact ⟨plain_of_ofProvenance? read, provenance_of_ofProvenance? read⟩
  · rintro ⟨plain, rfl⟩
    exact ofProvenance?_provenance plain

/-- The texts of origins are a code: exactly the plain origins are read back, each text
that is read is that of what it is read as, and so plain origins and the texts that are
read belong to each other one to one. -/
theorem bijOn_provenance :
    (∀ origin : Origin, ofProvenance? origin.provenance = some origin ↔ origin.Plain) ∧
      (∀ text origin, ofProvenance? text = some origin → origin.provenance = text) ∧
        Set.BijOn provenance {origin | origin.Plain}
          {text | (ofProvenance? text).isSome} := by
  refine ⟨?_, fun text origin => provenance_of_ofProvenance?, ?_, ?_, ?_⟩
  · intro origin
    rw [ofProvenance?_eq_some_iff, and_iff_left rfl]
  · intro origin plain
    exact Option.isSome_iff_exists.2 ⟨origin, ofProvenance?_provenance plain⟩
  · intro first plain second plain' same
    have read := ofProvenance?_provenance plain
    rw [same, ofProvenance?_provenance plain'] at read
    exact (Option.some.inj read).symm
  · intro text read
    obtain ⟨origin, found⟩ := Option.isSome_iff_exists.1 read
    exact ⟨origin, plain_of_ofProvenance? found, provenance_of_ofProvenance? found⟩

end Origin

end XmlRecords
