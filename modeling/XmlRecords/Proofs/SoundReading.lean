import Mathlib.Tactic.SplitIfs
import XmlRecords.Proofs.CharacterReferences
import XmlRecords.Proofs.ContentSteps
import XmlRecords.Proofs.DocumentParts
import XmlRecords.Proofs.Levels

/-!
# What documents hold

However a document is written, with character sections, references and entities, it is
read into what a document can hold.  The reader of the text of entities is a parameter
here, and the levels of entities are the last induction.
-/

namespace XmlRecords.Xml

section Text

theorem isAllowed_pushLiteral {c : Char} {buffer : List Char} (last : Bool)
    (allowed : isAllowed c) (front : ∀ c ∈ buffer, isAllowed c) :
    ∀ d ∈ pushLiteral c last buffer, isAllowed d := by
  have lineFeed : isAllowed '\n' := rfl
  unfold pushLiteral
  extract_lets isFinalReturn
  split
  · rw [List.forall_mem_cons] at front
    split_ifs
    all_goals simp_all
  · split_ifs
    all_goals simp_all

theorem isAllowed_pushLiterals {buffer text : List Char}
    (front : ∀ c ∈ buffer, isAllowed c) (allowed : ∀ c ∈ text, isAllowed c) :
    ∀ c ∈ pushLiterals buffer text, isAllowed c := by
  induction text generalizing buffer with
  | nil => exact front
  | cons c rest ih =>
      rw [List.forall_mem_cons] at allowed
      exact ih (isAllowed_pushLiteral _ allowed.1 front) allowed.2

theorem isAllowed_of_readUntil {mark : String} {done text value rest : List Char}
    (front : ∀ c ∈ done, isAllowed c)
    (read : readUntil mark done text = .ok (value, rest)) : ∀ c ∈ value, isAllowed c := by
  induction text generalizing done with
  | nil => cases read
  | cons c behind ih =>
      rw [readUntil] at read
      split at read
      · cases read
        exact fun c member => front c (List.mem_reverse.1 member)
      · split at read
        · next allowed => exact ih (List.forall_mem_cons.2 ⟨allowed, front⟩) read
        · cases read

end Text

/-- A reader of documents keeps what has been read sound. -/
def Enters (enter : Progress → List Char → Except MarkupDefect Progress) : Prop :=
  ∀ p text next, p.Sound → enter p text = .ok next → next.Sound

section Readers

variable {entities : List Entity} {levels fuel : Nat} {nested : Bool}
  {enter : Progress → List Char → Except MarkupDefect Progress} {p next : Progress}
  {text rest : List Char}

theorem sound_of_readTextWith (enters : Enters enter) {exact' : Bool}
    {buffer : List Char} (sound : p.Sound) (front : ∀ c ∈ buffer, isAllowed c)
    (allowed : ∀ c ∈ text, isAllowed c)
    (ended : readTextWith entities nested enter fuel exact' buffer p text = .ok next) :
    next.Sound := by
  induction fuel generalizing exact' buffer p text with
  | zero =>
      rw [readTextWith] at ended
      cases ended
  | succ fuel ih =>
      unfold readTextWith at ended
      split at ended
      · next impossible => cases impossible
      · cases ended
        exact sound.addBuffer front
      · next _ _ _ _ _ _ behind same =>
          cases same
          rw [List.forall_mem_cons] at allowed
          split at ended
          · cases ended
          · next c rest read =>
              -- What follows a reference is a suffix, so its characters are allowed too.
              have is := isReference_of_readReference? read
              have character := is.allowed c rfl
              have later := fun c member => allowed.2 c (is.suffix.subset member)
              split at ended
              · exact ih sound (isAllowed_pushLiteral _ character front) later ended
              · exact ih sound (List.forall_mem_cons.2 ⟨character, front⟩) later ended
          · next name rest read =>
              have is := isReference_of_readReference? read
              have later := fun c member => allowed.2 c (is.suffix.subset member)
              split at ended
              · cases ended
              · obtain ⟨references, _, ended⟩ := Outcome.bind_eq_ok.1 ended
                obtain ⟨between, entered, ended⟩ := Outcome.bind_eq_ok.1 ended
                have before := sound.addBuffer front
                exact ih (enters _ _ _ (before.count references) entered) (by simp) later
                  ended
      · next same =>
          cases same
          rw [List.forall_mem_cons] at allowed
          refine ih sound ?_ allowed.2 ended
          split
          · exact List.forall_mem_cons.2 ⟨allowed.1, front⟩
          · exact isAllowed_pushLiteral _ allowed.1 front

theorem isBase_of_readAttribute {a : Label × List Char}
    (read : readAttribute text = .ok (a, rest)) : isBase a.1.base := by
  rw [readAttribute] at read
  obtain ⟨⟨name, behind⟩, named, read⟩ := Outcome.bind_eq_ok.1 read
  obtain ⟨_, _, read⟩ := Outcome.bind_eq_ok.1 read
  obtain ⟨⟨_, _⟩, _, read⟩ := Outcome.bind_eq_ok.1 read
  dsimp only at read
  split at read
  · cases read
  · split at read
    · cases read
    · cases read
      exact isBase_of_readLabel named

theorem isBase_of_readTagRest {label : Label} {attributes : List (Label × List Char)}
    {tag : StartTag} (base : isBase label.base)
    (before : ∀ a ∈ attributes, isBase a.1.base)
    (read : readTagRest label fuel attributes text = .ok (tag, rest)) :
    isBase tag.label.base ∧ ∀ a ∈ tag.attributes, isBase a.1.base := by
  induction fuel generalizing attributes text with
  | zero =>
      rw [readTagRest] at read
      cases read
  | succ fuel ih =>
      have whole : ∀ a ∈ attributes.reverse, isBase a.1.base :=
        fun a member => before a (List.mem_reverse.1 member)
      unfold readTagRest at read
      split at read
      · next impossible => cases impossible
      · cases read
        exact ⟨base, whole⟩
      · next same _ =>
          cases same
          split at read
          · cases read
          · obtain ⟨_, _, same⟩ := Outcome.bind_eq_ok.1 read
            cases same
            exact ⟨base, whole⟩
          · cases read
            exact ⟨base, whole⟩
          · split at read
            · cases read
            · obtain ⟨⟨a, behind⟩, own, read⟩ := Outcome.bind_eq_ok.1 read
              exact ih (List.forall_mem_cons.2 ⟨isBase_of_readAttribute own, before⟩) read

theorem isBase_of_readStartTag {tag : StartTag}
    (read : readStartTag fuel text = .ok (tag, rest)) :
    isBase tag.label.base ∧ ∀ a ∈ tag.attributes, isBase a.1.base := by
  rw [readStartTag] at read
  obtain ⟨⟨label, behind⟩, named, read⟩ := Outcome.bind_eq_ok.1 read
  dsimp only at read
  split at read
  · cases read
  · exact isBase_of_readTagRest (isBase_of_readLabel named) (by simp) read

theorem isBase_of_readValues {count references : Nat}
    {attributes : List (Label × List Char)} {raw : List RawAttribute}
    (each : ∀ a ∈ attributes, isBase a.1.base)
    (read : readValues entities levels count attributes = .ok (raw, references)) :
    ∀ a ∈ raw, isBase a.name.base := by
  induction attributes generalizing count raw references with
  | nil =>
      cases read
      simp
  | cons first others ih =>
      obtain ⟨label, text⟩ := first
      rw [List.forall_mem_cons] at each
      rw [readValues] at read
      obtain ⟨⟨value, between⟩, _, read⟩ := Outcome.bind_eq_ok.1 read
      obtain ⟨⟨later, last⟩, further, same⟩ := Outcome.bind_eq_ok.1 read
      cases same
      exact List.forall_mem_cons.2 ⟨each.1, ih each.2 further⟩

theorem sound_of_addTag (sound : p.Sound) {tag : StartTag} (base : isBase tag.label.base)
    (each : ∀ a ∈ tag.attributes, isBase a.1.base)
    (added : addTag entities levels p tag = .ok next) : next.Sound := by
  rw [addTag] at added
  obtain ⟨⟨raw, references⟩, values, added⟩ := Outcome.bind_eq_ok.1 added
  have waits := (sound.count references).await (isBase_of_readValues each values)
  dsimp only at added
  split at added
  · exact waits.openElement base added
  · obtain ⟨between, opened, closed⟩ := Outcome.bind_eq_ok.1 added
    exact (waits.openElement base opened).closeElement closed
  · cases added
    exact waits

theorem sound_of_readContentWith (enters : Enters enter) {level : Nat} {tagged : Bool}
    (sound : p.Sound)
    (ended : readContentWith entities levels enter fuel level tagged p text =
      .ok (next, rest)) : next.Sound := by
  induction fuel generalizing level tagged p text with
  | zero =>
      rw [readContentWith] at ended
      cases ended
  | succ fuel ih =>
      unfold readContentWith at ended
      split at ended
      · next impossible => cases impossible
      · cases ended
        exact sound
      · next same =>
          cases same
          split at ended
          · obtain ⟨behind, _, ended⟩ := Outcome.bind_eq_ok.1 ended
            exact ih sound.endRun ended
          · obtain ⟨⟨value, behind⟩, read, ended⟩ := Outcome.bind_eq_ok.1 ended
            refine ih (sound.addText fun c member => ?_) ended
            rw [String.toList_ofList, List.mem_reverse] at member
            exact isAllowed_pushLiterals (by simp)
              (isAllowed_of_readUntil (by simp) read) c member
          · obtain ⟨behind, _, ended⟩ := Outcome.bind_eq_ok.1 ended
            exact ih sound.endRun ended
          · extract_lets goOn at ended
            split at ended
            · cases ended
            · obtain ⟨⟨label, behind⟩, _, ended⟩ := Outcome.bind_eq_ok.1 ended
              obtain ⟨between, closed, ended⟩ := Outcome.bind_eq_ok.1 ended
              split at ended
              · cases ended
                exact sound.closeTag closed
              · exact ih (sound.closeTag closed) ended
          · obtain ⟨⟨tag, behind⟩, read, ended⟩ := Outcome.bind_eq_ok.1 ended
            obtain ⟨between, added, ended⟩ := Outcome.bind_eq_ok.1 ended
            obtain ⟨base, each⟩ := isBase_of_readStartTag read
            exact ih (sound_of_addTag sound base each added) ended
      · next same _ _ =>
          cases same
          extract_lets run goOn goOn' at ended
          split at ended
          · cases ended
          · dsimp only [goOn'] at ended
            split at ended
            · cases ended
            · next allowed =>
                obtain ⟨between, read, ended⟩ := Outcome.bind_eq_ok.1 ended
                refine ih (sound_of_readTextWith enters sound (by simp) ?_ read) ended
                simpa using allowed

/-- The text of an entity is read into sound parts, however entities refer to each
other. -/
theorem enters_enterEntity (entities : List Entity) (levels : Nat) :
    Enters (enterEntity entities levels) := by
  induction levels with
  | zero =>
      intro p text next sound ended
      cases ended
  | succ levels ih =>
      intro p text next sound ended
      rw [enterEntity] at ended
      obtain ⟨⟨last, rest⟩, ended, same⟩ := Outcome.bind_eq_ok.1 ended
      cases same
      exact sound_of_readContentWith ih sound ended

theorem sound_of_readRoot {tree : Tree} (read : readRoot entities text = .ok (tree, rest)) :
    tree.Sound := by
  have start : Progress.Sound {} := ⟨by simp, by simp, by simp⟩
  rw [readRoot] at read
  obtain ⟨⟨tag, behind⟩, begun, read⟩ := Outcome.bind_eq_ok.1 read
  obtain ⟨p, added, read⟩ := Outcome.bind_eq_ok.1 read
  obtain ⟨base, each⟩ := isBase_of_readStartTag begun
  have opened := sound_of_addTag start base each added
  extract_lets finish at read
  have finishes : ∀ (last : Progress) (behind : List Char), last.Sound →
      finish (last, behind) = .ok (tree, rest) → tree.Sound := by
    intro last behind sound finished
    dsimp only [finish] at finished
    split at finished
    · next root =>
        cases finished
        exact sound.root _ root
    · cases finished
  split at read
  · obtain ⟨⟨last, behind⟩, ended, read⟩ := Outcome.bind_eq_ok.1 read
    exact finishes last behind
      (sound_of_readContentWith (enters_enterEntity entities _) opened ended) read
  · exact finishes p behind opened read

theorem sound_of_readTree {allowDoctype : Bool} {text : String} {tree : Tree}
    (read : readTree allowDoctype text = .ok tree) : tree.Sound := by
  obtain ⟨_, _, _, _, read⟩ := exists_readFront_of_readTree read
  exact sound_of_readRoot read

end Readers

theorem sound_pushText {latest : List Content} {run : String}
    (before : ∀ item ∈ latest, item.Sound) (allowed : ∀ c ∈ run.toList, isAllowed c) :
    ∀ item ∈ Content.pushText latest run, item.Sound := by
  unfold Content.pushText
  split
  · exact before
  · split
    · next value rest =>
        rw [List.forall_mem_cons] at before ⊢
        refine ⟨.text fun c member => ?_, before.2⟩
        cases before.1 with
        | text allowed' =>
            rw [String.toList_append, List.mem_append] at member
            exact member.elim (allowed' c) (allowed c)
    · exact List.forall_mem_cons.2 ⟨.text allowed, before⟩

mutual

theorem sound_of_content? (tree : Tree) {levels : Nat} {item : Content}
    (sound : tree.Sound) (collected : tree.content? levels = some item) : item.Sound := by
  cases sound with
  | text allowed =>
      cases collected
      exact .text allowed
  | @element name attributes scope content named own inside =>
      cases levels with
      | zero => cases collected
      | succ levels =>
          rw [Tree.content?, Option.map_eq_some_iff] at collected
          obtain ⟨items, collected, rfl⟩ := collected
          exact .element named own (sound_of_contents? content (by simp) inside collected)

/-- What is collected of sound trees is sound. -/
theorem sound_of_contents? (items : List Tree) {levels : Nat}
    {latest result : List Content} (before : ∀ item ∈ latest, item.Sound)
    (each : ∀ item ∈ items, item.Sound)
    (collected : Tree.contents? levels latest items = some result) :
    ∀ item ∈ result, item.Sound := by
  cases items with
  | nil =>
      cases collected
      exact fun item member => before item (List.mem_reverse.1 member)
  | cons first rest =>
      have inner := @sound_of_content? first
      rw [List.forall_mem_cons] at each
      cases first with
      | text value =>
          cases each.1 with
          | text allowed =>
              exact sound_of_contents? rest (sound_pushText before allowed) each.2
                collected
      | element name attributes scope content =>
          rw [Tree.contents?] at collected
          · split at collected
            · cases collected
            · next child found =>
                exact sound_of_contents? rest
                  (List.forall_mem_cons.2 ⟨inner each.1 found, before⟩) each.2 collected
          · simp

end

/-- Documents are read into what they can hold. -/
theorem sound_of_readElement {limit : Nat} {text : String} {e : Element}
    (read : readElement limit text = .ok e) : (Content.ofElement e).Sound := by
  obtain ⟨tree, parsed, collected⟩ := exists_tree_of_readElement read
  exact sound_of_content? tree (sound_of_readTree parsed) collected

end XmlRecords.Xml
