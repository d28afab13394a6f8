import Mathlib.Data.List.TakeDrop
import XmlRecords.Proofs.CharacterReferences
import XmlRecords.Proofs.Runs
import XmlRecords.Xml.Content

/-!
# References inside of texts

Readers go through a text from the left and look for a reference behind each ampersand.
No reference has an ampersand in it, so they come to each one in the text, whatever
stands in front of it, and where a reader goes through to the end it has resolved them
all.
-/

namespace XmlRecords

/-- A reference with a name somewhere in a text. -/
structure HasReference (name text : List Char) : Prop where
  unmarked : ';' ∉ name
  single : '&' ∉ name
  inside : '&' :: (name ++ [';']) <:+: text

namespace HasReference

variable {name used text : List Char}

/-- The first reference of a text is at its front or further behind. -/
theorem front_or (has : HasReference name ('&' :: text)) :
    (∃ back, text = name ++ ';' :: back) ∨ HasReference name text := by
  obtain begins | inside := List.infix_cons_iff.1 has.inside
  · obtain ⟨back, whole⟩ := (List.cons_prefix_cons.1 begins).2
    exact .inl ⟨back, by rw [← whole, List.append_assoc, List.singleton_append]⟩
  · exact .inr ⟨has.unmarked, has.single, inside⟩

theorem of_append (plain : '&' ∉ used) (has : HasReference name (used ++ text)) :
    HasReference name text := by
  induction used with
  | nil => exact has
  | cons c rest ih =>
      rw [List.mem_cons, not_or] at plain
      obtain begins | inside := List.infix_cons_iff.1 has.inside
      · exact absurd (List.cons_prefix_cons.1 begins).1 plain.1
      · exact ih plain.2 ⟨has.unmarked, has.single, inside⟩

theorem of_cons {c : Char} (plain : c ≠ '&') (has : HasReference name (c :: text)) :
    HasReference name text := by
  have none : '&' ∉ [c] := by simpa using plain.symm
  exact has.of_append none

end HasReference

namespace Token

variable {fuel : Nat} {done name text value : List Char}

/-- What is resolved in the value of an attribute are references for attributes. -/
theorem valueReference?_of_unescape? (read : unescape? fuel done text = some value)
    (has : HasReference name text) : ∃ c, valueReference? name = some c := by
  induction fuel generalizing done text with
  | zero => cases read
  | succ fuel ih =>
      unfold unescape? at read
      split at read
      · next impossible => cases impossible
      · exact absurd has.inside (by simp)
      · next behind same =>
          cases same
          rw [List.span_eq_takeWhile_dropWhile] at read
          split at read
          · next word rest parted =>
              obtain ⟨isWord, isRest⟩ := Prod.mk.inj parted
              split at read
              · next c is =>
                  obtain ⟨back, front⟩ | has := has.front_or
                  · have stops : ∀ c ∈ name, c != ';' && c != '&' := by
                      intro c member
                      have mark : c ≠ ';' := fun same => has.unmarked (same ▸ member)
                      have ampersand : c ≠ '&' := fun same => has.single (same ▸ member)
                      simp [mark, ampersand]
                    rw [front, Text.takeWhile_append_of_stops stops
                      (Text.stops_cons.2 rfl)] at isWord
                    exact ⟨c, isWord ▸ is⟩
                  · have plain : '&' ∉ word ++ [';'] := by
                      intro member
                      obtain inside | last := List.mem_append.1 member
                      · exact absurd (List.mem_takeWhile_imp (isWord ▸ inside)) (by decide)
                      · simp at last
                    have whole : (word ++ [';']) ++ rest = behind := by
                      rw [List.append_assoc, List.singleton_append, ← isWord, ← isRest,
                        List.takeWhile_append_dropWhile]
                    exact ih read ((whole ▸ has).of_append plain)
              · cases read
          · cases read
      · next c behind plain same =>
          cases same
          refine ih read (has.of_cons ?_)
          rintro rfl
          exact plain rfl

end Token

namespace Xml

variable {entities : List Entity} {levels fuel count : Nat} {nested : Bool}
  {name text rest : List Char} {found : Reference × List Char}

/-- What stands behind an ampersand is read as a reference wherever it is followed by
its mark. -/
def IsRead (name : List Char) : Prop :=
  ∃ back found, readReference? (name ++ ';' :: back) = some found

theorem isRead_or_later {behind : List Char} (has : HasReference name ('&' :: behind))
    (read : readReference? behind = some found) :
    IsRead name ∨ HasReference name found.2 := by
  obtain ⟨back, rfl⟩ | later := has.front_or
  · exact .inl ⟨back, found, read⟩
  · obtain ⟨used, rfl, plain⟩ := (isReference_of_readReference? read).used
    exact .inr (later.of_append plain)

theorem exists_spellsNumber_of_isRead {number : List Char} (isRead : IsRead ('#' :: number))
    (apart : ';' ∉ number) : ∃ value, SpellsNumber number value := by
  obtain ⟨back, found, read⟩ := isRead
  obtain ⟨value, _, spells, _⟩ := (readReference?_number apart).1 read
  exact ⟨value, spells⟩

/-- Text is read to its end only if all references in it are. -/
theorem isRead_of_readTextWith {enter : Progress → List Char → Except MarkupDefect Progress}
    {isExact : Bool} {buffer : List Char} {p next : Progress} (has : HasReference name text)
    (ended : readTextWith entities nested enter fuel isExact buffer p text = .ok next) :
    IsRead name := by
  induction fuel generalizing isExact buffer p text with
  | zero =>
      rw [readTextWith] at ended
      cases ended
  | succ fuel ih =>
      unfold readTextWith at ended
      split at ended
      · next impossible => cases impossible
      · exact absurd has.inside (by simp)
      · next _ _ _ _ _ _ behind same =>
          cases same
          split at ended
          · cases ended
          · next c rest read =>
              obtain isRead | later := isRead_or_later has read
              · exact isRead
              · split at ended
                · exact ih later ended
                · exact ih later ended
          · next entity rest read =>
              obtain isRead | later := isRead_or_later has read
              · exact isRead
              · split at ended
                · cases ended
                · obtain ⟨_, _, ended⟩ := Outcome.bind_eq_ok.1 ended
                  obtain ⟨_, _, ended⟩ := Outcome.bind_eq_ok.1 ended
                  exact ih later ended
      · next plain same =>
          cases same
          refine ih (has.of_cons ?_) ended
          rintro rfl
          exact plain rfl

/-- So are the values of attributes. -/
theorem isRead_of_readValueWith
    {enter : Nat → List Char → List Char → Except MarkupDefect (List Char × Nat)}
    {buffer : List Char} {result : List Char × Nat} (has : HasReference name text)
    (ended : readValueWith entities nested enter fuel count buffer text = .ok result) :
    IsRead name := by
  induction fuel generalizing count buffer text with
  | zero =>
      rw [readValueWith] at ended
      cases ended
  | succ fuel ih =>
      unfold readValueWith at ended
      split at ended
      · next impossible => cases impossible
      · exact absurd has.inside (by simp)
      · next behind same =>
          cases same
          split at ended
          · cases ended
          · next c rest read =>
              obtain isRead | later := isRead_or_later has read
              · exact isRead
              · split at ended
                · cases ended
                · exact ih later ended
          · next entity rest read =>
              obtain isRead | later := isRead_or_later has read
              · exact isRead
              · split at ended
                · cases ended
                · obtain ⟨_, _, ended⟩ := Outcome.bind_eq_ok.1 ended
                  obtain ⟨_, _, ended⟩ := Outcome.bind_eq_ok.1 ended
                  exact ih later ended
      · next plain same =>
          cases same
          have further := has.of_cons fun same => plain (same ▸ rfl)
          split at ended
          · exact ih further ended
          · exact ih further ended

theorem isRead_of_readValue {buffer : List Char} {result : List Char × Nat}
    (has : HasReference name text)
    (ended : readValue entities levels count buffer text = .ok result) : IsRead name := by
  cases levels with
  | zero => exact isRead_of_readValueWith has ended
  | succ levels => exact isRead_of_readValueWith has ended

theorem isRead_of_readValues {attributes : List (Label × List Char)}
    {result : List RawAttribute × Nat}
    (ended : readValues entities levels count attributes = .ok result)
    {a : Label × List Char} (member : a ∈ attributes) (has : HasReference name a.2) :
    IsRead name := by
  induction attributes generalizing count result with
  | nil => cases member
  | cons first others ih =>
      rw [readValues] at ended
      obtain ⟨_, value, ended⟩ := Outcome.bind_eq_ok.1 ended
      obtain ⟨_, further, _⟩ := Outcome.bind_eq_ok.1 ended
      obtain rfl | later := List.mem_cons.1 member
      · exact isRead_of_readValue has value
      · exact ih further later

theorem isRead_of_addTag {p next : Progress} {tag : StartTag}
    (added : addTag entities levels p tag = .ok next) {a : Label × List Char}
    (member : a ∈ tag.attributes) (has : HasReference name a.2) : IsRead name := by
  rw [addTag] at added
  obtain ⟨_, values, _⟩ := Outcome.bind_eq_ok.1 added
  exact isRead_of_readValues values member has

end Xml

end XmlRecords
