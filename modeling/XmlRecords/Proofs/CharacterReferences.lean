import Mathlib.Tactic.SplitIfs
import XmlRecords.Proofs.Spans
import XmlRecords.Proofs.WholeNumbers
import XmlRecords.Xml.Scan
import XmlRecords.Xml.Token

/-!
# References to characters

A reference names one of five entities, or the number of a character, in decimal
digits or behind an `x` in hexadecimal ones.  Three readers resolve references: that of
trees, and those of text and of attributes among the tokens.

The readers of trees and of attributes take only numbers that are spelled this way.  In
text the digits may also stand behind a plus sign, and the `x` may be a capital.
-/

namespace XmlRecords

section Digits

variable {radix start number : Nat} {text : List Char} {c : Char}

/-- Digits continue a number as a fold does that takes other characters for zeros. -/
theorem numberFrom?_eq_some_iff : numberFrom? radix start text = some number ↔
    (∀ c ∈ text, (digitValue? radix c).isSome) ∧
      text.foldl (fun sum c => sum * radix + (digitValue? radix c).getD 0) start =
        number := by
  induction text generalizing start with
  | nil => simp [numberFrom?]
  | cons c rest ih =>
      rw [numberFrom?, List.forall_mem_cons, List.foldl_cons]
      cases digitValue? radix c with
      | none => simp
      | some digit =>
          rw [Option.bind_some, ih, Option.getD_some, Nat.mul_comm radix start]
          simp

theorem not_mem_of_numberFrom? (other : hexValue? c = none)
    (read : numberFrom? radix start text = some number) : c ∉ text := by
  intro member
  have digit := (numberFrom?_eq_some_iff.1 read).1 c member
  rw [digitValue?, other] at digit
  cases digit

end Digits

/-- At least one digit of a radix, and the number that the digits stand for. -/
def IsNumber (radix : Nat) (text : List Char) (number : Nat) : Prop :=
  text ≠ [] ∧ numberFrom? radix 0 text = some number

/-- The number of a character as references spell it. -/
inductive SpellsNumber : List Char → Nat → Prop where
  | decimal {text : List Char} {number : Nat} (digits : IsNumber 10 text number) :
      SpellsNumber text number
  | hexadecimal {text : List Char} {number : Nat} (digits : IsNumber 16 text number) :
      SpellsNumber ('x' :: text) number

/-- The name of a reference to a character: a predefined entity, or the number of a
character that documents may hold. -/
inductive Refers : List Char → Char → Prop where
  | predefined {name : List Char} {c : Char} (is : Xml.predefinedEntity? name = some c) :
      Refers name c
  | numbered {number : List Char} {c : Char} (spells : SpellsNumber number c.toNat)
      (allowed : Xml.isAllowed c) : Refers ('#' :: number) c

namespace IsNumber

variable {radix number : Nat} {text : List Char} {c : Char}

theorem not_mem (digits : IsNumber radix text number) (other : hexValue? c = none) :
    c ∉ text :=
  not_mem_of_numberFrom? other digits.2

theorem head?_ne (digits : IsNumber radix text number) (other : hexValue? c = none) :
    text.head? ≠ some c := by
  intro begins
  exact digits.not_mem other (List.mem_of_head? begins)

end IsNumber

theorem not_spellsNumber_of_mem {text : List Char} {c : Char} (other : hexValue? c = none)
    (unmarked : c ≠ 'x') (member : c ∈ text) (number : Nat) :
    ¬ SpellsNumber text number := by
  intro spells
  cases spells with
  | decimal digits => exact digits.not_mem other member
  | hexadecimal digits =>
      obtain rfl | inside := List.mem_cons.1 member
      · exact unmarked rfl
      · exact digits.not_mem other inside

/-- The radix of a number and its digits. -/
def numberParts (number : List Char) : Nat × List Char :=
  match number with
  | 'x' :: digits => (16, digits)
  | _ => (10, number)

theorem numberParts_positive (number : List Char) : 0 < (numberParts number).1 := by
  unfold numberParts
  split <;> simp

theorem spellsNumber_iff_isNumber {number : List Char} {value : Nat} :
    SpellsNumber number value ↔
      IsNumber (numberParts number).1 (numberParts number).2 value := by
  unfold numberParts
  constructor
  · intro spells
    cases spells with
    | decimal digits =>
        split
        · exact absurd List.mem_cons_self (digits.not_mem rfl)
        · exact digits
    | hexadecimal digits => exact digits
  · intro digits
    split at digits
    · exact .hexadecimal digits
    · exact .decimal digits

namespace Xml

theorem isAllowed_of_charOfNumber? {number : Nat} {c : Char}
    (is : charOfNumber? number = some c) : isAllowed c := by
  rw [charOfNumber?] at is
  obtain ⟨_, is⟩ := Option.ite_none_left_eq_some.1 is
  extract_lets character at is
  obtain ⟨allowed, same⟩ := Option.ite_none_right_eq_some.1 is
  rwa [← Option.some.inj same]

theorem isAllowed_of_predefinedEntity? {name : List Char} {c : Char}
    (is : predefinedEntity? name = some c) : isAllowed c := by
  rw [predefinedEntity?] at is
  split_ifs at is
  all_goals
    cases is
    rfl

end Xml

namespace Token

variable {radix : Nat} {text number name : List Char} {c : Char}

/-- Digits of a radix, perhaps behind a plus sign. -/
inductive TakesDigits (radix : Nat) : List Char → Nat → Prop where
  | plain {text : List Char} {number : Nat} (digits : IsNumber radix text number) :
      TakesDigits radix text number
  | plus {text : List Char} {number : Nat} (digits : IsNumber radix text number) :
      TakesDigits radix ('+' :: text) number

/-- The number of a character as references in text may give it. -/
inductive TakesNumber : List Char → Nat → Prop where
  | decimal {text : List Char} {number : Nat} (digits : TakesDigits 10 text number) :
      TakesNumber text number
  | hexadecimal {mark : Char} {text : List Char} {number : Nat}
      (isMark : mark = 'x' ∨ mark = 'X') (digits : TakesDigits 16 text number) :
      TakesNumber (mark :: text) number

theorem charOfNumber?_eq_some_iff {number : Nat} :
    charOfNumber? number = some c ↔ c.toNat = number := by
  rw [charOfNumber?]
  by_cases valid : number.isValidChar
  · rw [dif_pos valid]
    constructor
    · rintro ⟨⟩
      rfl
    · rintro rfl
      rfl
  · rw [dif_neg valid]
    refine iff_of_false (by simp) ?_
    rintro rfl
    exact valid c.valid

theorem numberedChar?_eq_some_iff (positive : 0 < radix) :
    numberedChar? radix text = some c ↔ TakesDigits radix text c.toNat := by
  have zero : (Bounds.unsigned 32).Holds 0 := ⟨by decide, by decide⟩
  constructor
  · intro is
    unfold numberedChar? at is
    split at is
    · next value read =>
        obtain ⟨denotes, _, unsigned⟩ := (Bounds.read_eq_ok_iff zero positive).1 read
        have same := charOfNumber?_eq_some_iff.1 is
        rw [same]
        cases denotes with
        | digits filled digits => exact .plain ⟨filled, digits⟩
        | plus filled digits => exact .plus ⟨filled, digits⟩
        | minus => exact absurd (unsigned rfl) (by decide)
    · cases is
  · intro takes
    have holds : (Bounds.unsigned 32).Holds c.toNat := by
      have small : c.toNat < 2 ^ 32 := c.val.toNat_lt
      change (0 : Int) ≤ c.toNat ∧ (c.toNat : Int) ≤ (2 ^ 32 : Nat) - 1
      omega
    have read : (Bounds.unsigned 32).read radix text = .ok (c.toNat : Int) := by
      refine (Bounds.read_eq_ok_iff zero positive).2 ⟨?_, holds, ?_⟩
      · cases takes with
        | plain digits => exact .digits digits.1 digits.2
        | plus digits => exact .plus digits.1 digits.2
      · intro signed
        cases takes with
        | plain digits => exact absurd signed (digits.head?_ne rfl)
        | plus => cases signed
    rw [numberedChar?, read]
    exact charOfNumber?_eq_some_iff.2 (Int.toNat_natCast _).symm

theorem takesDigits_iff_of_unsigned {value : Nat} (unsigned : text.head? ≠ some '+') :
    TakesDigits radix text value ↔ IsNumber radix text value := by
  constructor
  · intro takes
    cases takes with
    | plain digits => exact digits
    | plus => exact absurd rfl unsigned
  · exact .plain

/-- A mark for hexadecimal digits is no digit itself. -/
theorem takesNumber_iff_of_mark {mark : Char} (isMark : mark = 'x' ∨ mark = 'X')
    {value : Nat} : TakesNumber (mark :: text) value ↔ TakesDigits 16 text value := by
  constructor
  · intro takes
    cases takes with
    | decimal digits =>
        exfalso
        cases digits with
        | plain digits =>
            refine digits.not_mem ?_ List.mem_cons_self
            rcases isMark with rfl | rfl <;> rfl
        | plus => simp at isMark
    | hexadecimal _ digits => exact digits
  · exact .hexadecimal isMark

theorem takesNumber_iff_of_head? {value : Nat} (lower : text.head? ≠ some 'x')
    (upper : text.head? ≠ some 'X') :
    TakesNumber text value ↔ TakesDigits 10 text value := by
  constructor
  · intro takes
    cases takes with
    | decimal digits => exact digits
    | hexadecimal isMark =>
        rcases isMark with rfl | rfl
        · exact absurd rfl lower
        · exact absurd rfl upper
  · exact .decimal

theorem textReference?_number :
    textReference? ('#' :: number) = some c ↔ TakesNumber number c.toNat := by
  have unnamed : Xml.predefinedEntity? ('#' :: number) = none := by
    simp [Xml.predefinedEntity?]
  unfold textReference?
  rw [unnamed]
  dsimp only
  split
  · next digits same =>
      cases same
      rw [numberedChar?_eq_some_iff (by decide), takesNumber_iff_of_mark (.inl rfl)]
  · next digits same =>
      cases same
      rw [numberedChar?_eq_some_iff (by decide), takesNumber_iff_of_mark (.inr rfl)]
  · next digits lower upper same =>
      cases same
      rw [numberedChar?_eq_some_iff (by decide), takesNumber_iff_of_head?]
      · intro begins
        obtain ⟨rest, rfl⟩ := List.head?_eq_some_iff.1 begins
        exact lower rest rfl
      · intro begins
        obtain ⟨rest, rfl⟩ := List.head?_eq_some_iff.1 begins
        exact upper rest rfl
  · next other => exact absurd rfl (other number)

/-- What references in text stand for. -/
theorem textReference?_eq_some_iff : textReference? name = some c ↔
    Xml.predefinedEntity? name = some c ∨
      ∃ number, name = '#' :: number ∧ TakesNumber number c.toNat := by
  by_cases numbered : ∃ number, name = '#' :: number
  · obtain ⟨number, rfl⟩ := numbered
    simp [textReference?_number, Xml.predefinedEntity?]
  · unfold textReference?
    cases Xml.predefinedEntity? name with
    | some found => simp_all
    | none =>
        dsimp only
        split
        all_goals simp_all

/-- Beside what is spelled, only plus signs and capital marks are taken. -/
theorem spellsNumber_iff {value : Nat} : SpellsNumber number value ↔
    TakesNumber number value ∧ '+' ∉ number ∧ 'X' ∉ number := by
  constructor
  · intro spells
    refine ⟨?_, fun plus => ?_, fun upper => ?_⟩
    · cases spells with
      | decimal digits => exact .decimal (.plain digits)
      | hexadecimal digits => exact .hexadecimal (.inl rfl) (.plain digits)
    · exact not_spellsNumber_of_mem rfl (by decide) plus value spells
    · exact not_spellsNumber_of_mem rfl (by decide) upper value spells
  · rintro ⟨takes, plus, upper⟩
    cases takes with
    | decimal digits =>
        cases digits with
        | plain digits => exact .decimal digits
        | plus => exact absurd List.mem_cons_self plus
    | hexadecimal isMark digits =>
        obtain rfl | rfl := isMark
        · cases digits with
          | plain digits => exact .hexadecimal digits
          | plus => exact absurd (List.mem_cons_of_mem _ List.mem_cons_self) plus
        · exact absurd List.mem_cons_self upper

theorem plain_of_predefinedEntity? (is : Xml.predefinedEntity? name = some c) :
    ∀ letter ∈ name, letter != '+' && letter != 'X' := by
  rw [← List.all_eq_true]
  unfold Xml.predefinedEntity? at is
  split_ifs at is
  all_goals
    subst name
    rfl

/-- What text takes for a reference is one, unless its number has a plus sign, a capital
mark, or is that of no character of documents. -/
theorem refers_iff : Refers name c ↔
    textReference? name = some c ∧ '+' ∉ name ∧ 'X' ∉ name ∧ Xml.isAllowed c := by
  constructor
  · intro refers
    cases refers with
    | predefined is =>
        have plain := plain_of_predefinedEntity? is
        refine ⟨textReference?_eq_some_iff.2 (.inl is), fun plus => ?_, fun upper => ?_,
          Xml.isAllowed_of_predefinedEntity? is⟩
        · exact absurd (plain _ plus) (by decide)
        · exact absurd (plain _ upper) (by decide)
    | numbered spells allowed =>
        obtain ⟨takes, plus, upper⟩ := spellsNumber_iff.1 spells
        exact ⟨textReference?_number.2 takes, by simpa using plus, by simpa using upper,
          allowed⟩
  · rintro ⟨is, plus, upper, allowed⟩
    obtain predefined | ⟨number, rfl, takes⟩ := textReference?_eq_some_iff.1 is
    · exact .predefined predefined
    · refine .numbered (spellsNumber_iff.2 ⟨takes, ?_, ?_⟩) allowed
      · exact fun inside => plus (List.mem_cons_of_mem _ inside)
      · exact fun inside => upper (List.mem_cons_of_mem _ inside)

/-- In attributes numbers are spelled exactly, and not zero. -/
theorem valueReference?_number :
    valueReference? ('#' :: number) = some c ↔ SpellsNumber number c.toNat ∧ c ≠ '\x00' := by
  have parted : valueReference? ('#' :: number) =
      if (numberParts number).2.head? == some '+' then none
      else (numberedChar? (numberParts number).1 (numberParts number).2).filter
        (· != '\x00') := rfl
  rw [parted, spellsNumber_iff_isNumber]
  by_cases signed : (numberParts number).2.head? = some '+'
  · rw [if_pos (by simpa using signed)]
    exact iff_of_false (by simp) fun spells => spells.1.head?_ne rfl signed
  · rw [if_neg (by simpa using signed), Option.filter_eq_some_iff,
      numberedChar?_eq_some_iff (numberParts_positive number),
      takesDigits_iff_of_unsigned signed]
    simp

end Token

namespace Xml

variable {radix : Nat} {text number rest : List Char} {found : Reference × List Char}

/-- Read digits of a radix and the mark behind them. -/
def readNumbered? (radix : Nat) (text : List Char) : Option (Reference × List Char) :=
  let digits := text.takeWhile fun c => (digitValue? radix c).isSome
  if digits.isEmpty then none
  else
    (charOfNumber? (digits.foldl (fun sum c =>
      sum * radix + (digitValue? radix c).getD 0) 0)).bind fun c =>
        match text.drop digits.length with
        | ';' :: rest => some (.char c, rest)
        | _ => none

theorem readReference?_eq_readNumbered? (text : List Char) :
    readReference? ('#' :: text) =
      readNumbered? (numberParts text).1 (numberParts text).2 := by
  by_cases marked : ∃ digits, text = 'x' :: digits
  · obtain ⟨digits, rfl⟩ := marked
    rfl
  · have parted : numberParts text = (10, text) := by
      unfold numberParts
      split
      · next digits => exact absurd ⟨digits, rfl⟩ marked
      · rfl
    -- With this at hand the reader is unfolded to its case without a mark.
    have unmarked : ∀ digits, text ≠ 'x' :: digits := not_exists.1 marked
    rw [parted]
    simp only [readReference?]
    rfl

/-- The digits have to reach up to the mark. -/
theorem readNumbered?_eq_some_iff (apart : ';' ∉ text) :
    readNumbered? radix (text ++ ';' :: rest) = some found ↔
      ∃ value c, IsNumber radix text value ∧ charOfNumber? value = some c ∧
        found = (.char c, rest) := by
  simp only [readNumbered?, Text.drop_length_takeWhile]
  by_cases each : ∀ c ∈ text, (digitValue? radix c).isSome
  · have stops : Text.Stops (fun c => (digitValue? radix c).isSome) (';' :: rest) :=
      Text.stops_cons.2 rfl
    rw [Text.takeWhile_append_of_stops each stops, Text.dropWhile_append_of_stops each stops]
    split
    · next empty => simp [List.isEmpty_iff.1 empty, IsNumber]
    · next filled =>
        rw [List.isEmpty_iff] at filled
        constructor
        · intro read
          obtain ⟨c, is, same⟩ := Option.bind_eq_some_iff.1 read
          cases same
          exact ⟨_, c, ⟨filled, numberFrom?_eq_some_iff.2 ⟨each, rfl⟩⟩, is, rfl⟩
        · rintro ⟨value, c, isNumber, is, rfl⟩
          rw [(numberFrom?_eq_some_iff.1 isNumber.2).2, is]
          rfl
  · have ends : text.all (fun c => (digitValue? radix c).isSome) = false := by
      rwa [← Bool.not_eq_true, List.all_eq_true]
    rw [Text.dropWhile_append_of_not_all ends]
    constructor
    · intro read
      obtain ⟨_, read⟩ := Option.ite_none_left_eq_some.1 read
      obtain ⟨c, _, read⟩ := Option.bind_eq_some_iff.1 read
      split at read
      · next whole =>
          -- What stops the digits stands in front of the mark.
          cases back : text.dropWhile fun c => (digitValue? radix c).isSome with
          | nil => exact absurd (List.dropWhile_eq_nil_iff.1 back) each
          | cons first others =>
              rw [back] at whole
              cases whole
              have inside := (List.dropWhile_suffix fun c => (digitValue? radix c).isSome).mem
                (back ▸ List.mem_cons_self)
              exact absurd inside apart
      · cases read
    · rintro ⟨value, _, isNumber, _⟩
      exact absurd (numberFrom?_eq_some_iff.1 isNumber.2).1 each

theorem numberParts_append_mark (number rest : List Char) :
    numberParts (number ++ ';' :: rest) =
      ((numberParts number).1, (numberParts number).2 ++ ';' :: rest) := by
  unfold numberParts
  split
  · next digits whole =>
      cases number with
      | nil => cases whole
      | cons c others =>
          cases whole
          rfl
  · next other =>
      split
      · next digits => exact absurd rfl (other _)
      · rfl

/-- There is nothing but a mark in front of the digits. -/
theorem exists_append_numberParts (number : List Char) :
    ∃ front, number = front ++ (numberParts number).2 ∧ ∀ c ∈ front, c = 'x' := by
  unfold numberParts
  split
  · exact ⟨['x'], rfl, by simp⟩
  · exact ⟨[], rfl, by simp⟩

/-- In trees numbers are spelled exactly. -/
theorem readReference?_number (apart : ';' ∉ number) :
    readReference? ('#' :: (number ++ ';' :: rest)) = some found ↔
      ∃ value c, SpellsNumber number value ∧ charOfNumber? value = some c ∧
        found = (.char c, rest) := by
  obtain ⟨front, parted, _⟩ := exists_append_numberParts number
  have inside : ';' ∉ (numberParts number).2 := by
    intro member
    rw [parted] at apart
    exact apart (List.mem_append_right front member)
  rw [readReference?_eq_readNumbered?, numberParts_append_mark,
    readNumbered?_eq_some_iff inside]
  simp only [spellsNumber_iff_isNumber]

/-- A text begins with what is read as a reference.  There is no ampersand in it, and
if it stands for a character, the character is allowed. -/
structure IsReference (text : List Char) (found : Reference × List Char) : Prop where
  used : ∃ used, text = used ++ found.2 ∧ '&' ∉ used
  allowed : ∀ c, found.1 = .char c → isAllowed c

theorem IsReference.suffix (is : IsReference text found) : found.2 <:+ text := by
  obtain ⟨used, rfl, _⟩ := is.used
  exact List.suffix_append used found.2

theorem IsReference.append {front : List Char} (plain : '&' ∉ front)
    (is : IsReference text found) : IsReference (front ++ text) found := by
  obtain ⟨used, whole, none⟩ := is.used
  refine ⟨⟨front ++ used, ?_, ?_⟩, is.allowed⟩
  · rw [whole, List.append_assoc]
  · simp [plain, none]

theorem isReference_of_readNumbered? (read : readNumbered? radix text = some found) :
    IsReference text found := by
  simp only [readNumbered?, Text.drop_length_takeWhile] at read
  obtain ⟨_, read⟩ := Option.ite_none_left_eq_some.1 read
  obtain ⟨c, is, read⟩ := Option.bind_eq_some_iff.1 read
  split at read
  · next rest behind =>
      cases read
      refine ⟨⟨text.takeWhile (fun c => (digitValue? radix c).isSome) ++ [';'], ?_, ?_⟩, ?_⟩
      · rw [List.append_assoc, List.singleton_append, ← behind,
          List.takeWhile_append_dropWhile]
      · intro member
        obtain digit | last := List.mem_append.1 member
        · exact absurd (List.mem_takeWhile_imp digit) (by simp [digitValue?, hexValue?])
        · simp at last
      · rintro _ ⟨⟩
        exact isAllowed_of_charOfNumber? is
  · cases read

theorem plain_of_readName {name : List Char} (read : readName text = .ok (name, rest)) :
    text = name ++ rest ∧ '&' ∉ name := by
  have plain : '&' ∉ text.takeWhile isNameChar := by
    intro member
    exact absurd (List.mem_takeWhile_imp member) (by decide)
  rw [readName] at read
  split at read
  · cases read
  · next first others same =>
      split at read
      · cases read
        rw [← same]
        exact ⟨List.takeWhile_append_dropWhile.symm, plain⟩
      · cases read

theorem isReference_of_readReference? (read : readReference? text = some found) :
    IsReference text found := by
  by_cases numbered : ∃ number, text = '#' :: number
  · obtain ⟨number, rfl⟩ := numbered
    rw [readReference?_eq_readNumbered?] at read
    obtain ⟨front, parted, mark⟩ := exists_append_numberParts number
    have plain : '&' ∉ '#' :: front := by
      intro member
      obtain hash | inFront := List.mem_cons.1 member
      · exact absurd hash (by decide)
      · exact absurd (mark _ inFront) (by decide)
    have is := (isReference_of_readNumbered? read).append plain
    rwa [List.cons_append, ← parted] at is
  · unfold readReference? at read
    extract_lets finish at read
    have finishes : ∀ reference behind, finish (reference, behind) = some found →
        found.1 = reference ∧ behind = ';' :: found.2 := by
      intro reference behind finished
      dsimp only [finish] at finished
      split at finished
      · cases finished
        exact ⟨rfl, rfl⟩
      · cases finished
    split at read
    · next number => exact absurd ⟨number, rfl⟩ numbered
    · obtain ⟨⟨name, behind⟩, named, read⟩ := Option.bind_eq_some_iff.1 read
      cases whole : readName text with
      | error defect =>
          rw [whole] at named
          cases named
      | ok parted =>
          rw [whole] at named
          cases named
          obtain ⟨same, plain⟩ := plain_of_readName whole
          have used : behind = ';' :: found.2 →
              ∃ used, text = used ++ found.2 ∧ '&' ∉ used := by
            rintro rfl
            refine ⟨name ++ [';'], ?_, ?_⟩
            · rw [same, List.append_assoc, List.singleton_append]
            · simpa using plain
          dsimp only at read
          split at read
          · next c is =>
              obtain ⟨reference, mark⟩ := finishes _ _ read
              refine ⟨used mark, fun c same => ?_⟩
              cases reference.symm.trans same
              exact isAllowed_of_predefinedEntity? is
          · obtain ⟨reference, mark⟩ := finishes _ _ read
            refine ⟨used mark, fun c same => ?_⟩
            cases reference.symm.trans same

end Xml

end XmlRecords
