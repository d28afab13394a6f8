import XmlRecords.Proofs.Origins
import XmlRecords.Proofs.WholeNumbers
import XmlRecords.Time.Zone

/-!
# Zones given by offsets

Behind the sign of an offset there are two whole numbers with a colon between them.
Where neither has a sign of its own, an offset is read exactly if it is below one day
and its minutes are below one hour.  A sign of their own turns the hours or the
minutes round.
-/

namespace XmlRecords

theorem numberFrom?_ten_eq_some {text : List Char} (each : ∀ c ∈ text, isDigit c) :
    numberFrom? 10 0 text = some (Nat.ofDigitChars 10 text 0) :=
  numberFrom?_ten.2 ⟨each, rfl⟩

/-- The characters of a whole number are digits and signs. -/
theorem isDigit_of_denotes {text : List Char} {value : Int}
    (denotes : Denotes 10 text value) : ∀ c ∈ text, isDigit c ∨ c = '+' ∨ c = '-' := by
  cases denotes with
  | digits _ read => exact fun c member => .inl ((numberFrom?_ten.1 read).1 c member)
  | plus _ read =>
      refine List.forall_mem_cons.2 ⟨.inr (.inl rfl), fun c member => .inl ?_⟩
      exact (numberFrom?_ten.1 read).1 c member
  | minus _ read =>
      refine List.forall_mem_cons.2 ⟨.inr (.inr rfl), fun c member => .inl ?_⟩
      exact (numberFrom?_ten.1 read).1 c member

/-- Without a sign, a whole number consists of digits. -/
theorem denotes_ten_iff_of_not_mem {text : List Char} {value : Int}
    (noPlus : '+' ∉ text) (noMinus : '-' ∉ text) :
    Denotes 10 text value ↔ text ≠ [] ∧ (∀ c ∈ text, isDigit c) ∧
      value = Nat.ofDigitChars 10 text 0 := by
  have unsigned : Unsigned text :=
    ⟨fun first => noPlus (List.mem_of_mem_head? first),
      fun first => noMinus (List.mem_of_mem_head? first)⟩
  rw [denotes_iff_of_unsigned unsigned]
  refine and_congr_right fun _ => ?_
  constructor
  · rintro ⟨number, read, rfl⟩
    obtain ⟨each, rfl⟩ := numberFrom?_ten.1 read
    exact ⟨each, rfl⟩
  · rintro ⟨each, rfl⟩
    exact ⟨_, numberFrom?_ten_eq_some each, rfl⟩

namespace Offset

/-- Hours and minutes are written in a text, with a colon between them, and stay below
one day and one hour. -/
structure IsClock (text : List Char) (hours minutes : Int) : Prop where
  written : ∃ front back, text = front ++ ':' :: back ∧
    Denotes 10 front hours ∧ Denotes 10 back minutes
  fits : (Bounds.signed 32).Holds hours ∧ (Bounds.signed 32).Holds minutes
  minutes_lt : minutes < 60
  below : (60 * hours + minutes).natAbs < 24 * 60

theorem holds_zero : (Bounds.signed 32).Holds 0 := ⟨by decide, by decide⟩

theorem holds_of_lt {number : Nat} (small : number < 24 * 60) :
    (Bounds.signed 32).Holds number := by
  change -2147483648 ≤ (number : Int) ∧ (number : Int) ≤ 2147483647
  omega

theorem toOption_read_eq_some_iff {text : List Char} {value : Int} :
    ((Bounds.signed 32).read 10 text).toOption = some value ↔
      Denotes 10 text value ∧ (Bounds.signed 32).Holds value := by
  have signed : (Bounds.signed 32).low < 0 := by decide
  have reads : (Bounds.signed 32).read 10 text = .ok value ↔ _ :=
    Bounds.read_eq_ok_iff holds_zero (by decide)
  cases read : (Bounds.signed 32).read 10 text <;> simp_all [Except.toOption]

/-- The colon behind the hours is the first one. -/
theorem splitOnce_clock {front back : List Char} {hours : Int}
    (denotes : Denotes 10 front hours) :
    Text.splitOnce ':' (front ++ ':' :: back) = some (front, back) := by
  refine Text.splitOnce_append back fun member => ?_
  rcases isDigit_of_denotes denotes ':' member with digit | plus | minus
  · exact absurd digit (by decide)
  · exact absurd plus (by decide)
  · exact absurd minus (by decide)

theorem readSigned?_eq_some_iff {sign : Int} (isSign : sign = 1 ∨ sign = -1)
    {text : List Char} {offset : Offset} :
    readSigned? sign text = some offset ↔ ∃ hours minutes, IsClock text hours minutes ∧
      offset = ⟨sign * (60 * (60 * hours + minutes))⟩ := by
  have seconds_eq : ∀ hours minutes : Int,
      hours * 3600 + minutes * 60 = 60 * (60 * hours + minutes) := by
    intro hours minutes
    ring
  rw [readSigned?]
  simp only [Option.bind_eq_bind, Option.bind_eq_some_iff, toOption_read_eq_some_iff,
    seconds_eq]
  constructor
  · rintro ⟨⟨front, back⟩, split, hours, ⟨isHours, fitHours⟩, minutes,
      ⟨isMinutes, fitMinutes⟩, read⟩
    obtain ⟨small, read⟩ := Option.ite_none_left_eq_some.1 read
    obtain ⟨below, read⟩ := Option.ite_none_right_eq_some.1 read
    refine ⟨hours, minutes, ⟨⟨front, back, Text.splitOnce_eq_append split, isHours,
      isMinutes⟩, ⟨fitHours, fitMinutes⟩, not_le.1 small, ?_⟩, (Option.some.inj read).symm⟩
    rcases isSign with rfl | rfl <;> omega
  · rintro ⟨hours, minutes, ⟨⟨front, back, rfl, isHours, isMinutes⟩, fits, small, below⟩,
      rfl⟩
    refine ⟨(front, back), splitOnce_clock isHours, hours, ⟨isHours, fits.1⟩, minutes,
      ⟨isMinutes, fits.2⟩, ?_⟩
    rw [if_neg (not_le.2 small), if_pos]
    rcases isSign with rfl | rfl <;> omega

/-- The direction of an offset. -/
def direction (sign : Char) : Int := if sign = '-' then -1 else 1

theorem read?_eq_some_iff {sign : Char} (isSign : sign = '+' ∨ sign = '-')
    {rest : List Char} {offset : Offset} :
    read? (sign :: rest) = some offset ↔ ∃ hours minutes, IsClock rest hours minutes ∧
      offset = ⟨direction sign * (60 * (60 * hours + minutes))⟩ := by
  rcases isSign with rfl | rfl
  · exact readSigned?_eq_some_iff (.inl rfl)
  · exact readSigned?_eq_some_iff (.inr rfl)

/-- Without further signs, the hours and the minutes are plain digits. -/
theorem isClock_iff_of_not_mem {text : List Char} {hours minutes : Int}
    (noPlus : '+' ∉ text) (noMinus : '-' ∉ text) :
    IsClock text hours minutes ↔ ∃ front back, text = front ++ ':' :: back ∧
      (front ≠ [] ∧ ∀ c ∈ front, isDigit c) ∧ (back ≠ [] ∧ ∀ c ∈ back, isDigit c) ∧
      hours = Nat.ofDigitChars 10 front 0 ∧ minutes = Nat.ofDigitChars 10 back 0 ∧
      Nat.ofDigitChars 10 back 0 < 60 ∧
      60 * Nat.ofDigitChars 10 front 0 + Nat.ofDigitChars 10 back 0 < 24 * 60 := by
  constructor
  · rintro ⟨⟨front, back, rfl, isHours, isMinutes⟩, _, small, below⟩
    simp only [List.mem_append, List.mem_cons, not_or] at noPlus noMinus
    obtain ⟨filledHours, digitsHours, rfl⟩ :=
      (denotes_ten_iff_of_not_mem noPlus.1 noMinus.1).1 isHours
    obtain ⟨filledMinutes, digitsMinutes, rfl⟩ :=
      (denotes_ten_iff_of_not_mem noPlus.2.2 noMinus.2.2).1 isMinutes
    exact ⟨front, back, rfl, ⟨filledHours, digitsHours⟩, ⟨filledMinutes, digitsMinutes⟩,
      rfl, rfl, by omega, by omega⟩
  · rintro ⟨front, back, rfl, ⟨filledHours, digitsHours⟩, ⟨filledMinutes, digitsMinutes⟩,
      rfl, rfl, small, below⟩
    refine ⟨⟨front, back, rfl, .digits filledHours (numberFrom?_ten_eq_some digitsHours),
      .digits filledMinutes (numberFrom?_ten_eq_some digitsMinutes)⟩,
      ⟨holds_of_lt (by omega), holds_of_lt (by omega)⟩, by omega, by omega⟩

end Offset

namespace Zone

variable {text : String} {sign : Char} {rest : List Char} {zone : Zone}

theorem read_of_sign (trimmed : Text.trimChars text.toList = sign :: rest)
    (isSign : sign = '+' ∨ sign = '-') :
    read text = match Offset.read? (sign :: rest) with
      | some offset => .ok (.fixed offset)
      | none => .error (.literal .dateTime (Text.trim text) (.offset (Text.trim text))) := by
  have notUtc : ¬ (isUtcName (sign :: rest) || sign :: rest == ['Z']) = true := by
    have lower : '+'.toLower = '+' ∧ '-'.toLower = '-' := by decide
    rcases isSign with rfl | rfl <;> simp [isUtcName, lower]
  have signed : ((sign :: rest).head? == some '+' || (sign :: rest).head? == some '-') =
      true := by
    rcases isSign with rfl | rfl <;> rfl
  rw [read, Text.trim, trimmed, if_neg notUtc]
  exact if_pos signed

theorem read_of_sign_eq_ok_iff (trimmed : Text.trimChars text.toList = sign :: rest)
    (isSign : sign = '+' ∨ sign = '-') :
    read text = .ok zone ↔ ∃ hours minutes, Offset.IsClock rest hours minutes ∧
      zone = .fixed ⟨Offset.direction sign * (60 * (60 * hours + minutes))⟩ := by
  have offsets := @Offset.read?_eq_some_iff sign isSign rest
  rw [read_of_sign trimmed isSign]
  cases found : Offset.read? (sign :: rest) with
  | none =>
      refine iff_of_false (by simp) ?_
      rintro ⟨hours, minutes, isClock, _⟩
      rw [offsets.2 ⟨hours, minutes, isClock, rfl⟩] at found
      cases found
  | some offset =>
      constructor
      · rintro ⟨⟩
        obtain ⟨hours, minutes, isClock, rfl⟩ := offsets.1 found
        exact ⟨hours, minutes, isClock, rfl⟩
      · rintro ⟨hours, minutes, isClock, rfl⟩
        rw [offsets.2 ⟨hours, minutes, isClock, rfl⟩] at found
        cases found
        rfl

end Zone

end XmlRecords
