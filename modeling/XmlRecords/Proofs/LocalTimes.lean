import XmlRecords.Proofs.DayCount
import XmlRecords.Proofs.Spans
import XmlRecords.Proofs.WholeNumbers

/-!
# Local date-times as they are written

Each number of a date-time stops at the mark behind it, so that it is read as what its
digits stand for.  A whole date-time is read exactly if its day and its time of day
exist.  Of a fraction, which may be of any length, the first three digits count.
-/

namespace XmlRecords

theorem isBlank_of_isDigit {c : Char} (digit : isDigit c) : isBlank c = false := by
  have range := toNat_of_isDigit digit
  simp only [isBlank, Bool.or_eq_false_iff, Bool.and_eq_false_iff, decide_eq_false_iff_not,
    beq_eq_false_iff_ne]
  omega

theorem digit_lt {c : Char} (digit : isDigit c) : c.toNat - '0'.toNat < 10 := by
  have range := toNat_of_isDigit digit
  change c.toNat - 48 < 10
  omega

/-- Room for one digit more is room for ten numbers instead of one. -/
theorem next_mul_pow_le {start digit : Nat} (small : digit < 10) (n : Nat) :
    (10 * start + digit + 1) * 10 ^ n ≤ (start + 1) * 10 ^ (n + 1) := by
  rw [pow_succ', ← Nat.mul_assoc]
  refine Nat.mul_le_mul_right _ ?_
  omega

theorem ofDigitChars_lt {chars : List Char} (each : ∀ c ∈ chars, isDigit c) (start : Nat) :
    Nat.ofDigitChars 10 chars start < (start + 1) * 10 ^ chars.length := by
  induction chars generalizing start with
  | nil => simp
  | cons c rest ih =>
      have small := digit_lt (each c (by simp))
      calc Nat.ofDigitChars 10 (c :: rest) start
          = Nat.ofDigitChars 10 rest (10 * start + (c.toNat - '0'.toNat)) :=
            Nat.ofDigitChars_cons
        _ < (10 * start + (c.toNat - '0'.toNat) + 1) * 10 ^ rest.length :=
            ih (fun d member => each d (by simp [member])) _
        _ ≤ (start + 1) * 10 ^ (c :: rest).length := next_mul_pow_le small rest.length

/-- Digits left out at the end are divided away. -/
theorem ofDigitChars_take {chars : List Char} (each : ∀ c ∈ chars, isDigit c) (n : Nat) :
    Nat.ofDigitChars 10 (chars.take n) 0 =
      Nat.ofDigitChars 10 chars 0 / 10 ^ (chars.length - n) := by
  have small : Nat.ofDigitChars 10 (chars.drop n) 0 < 10 ^ (chars.length - n) := by
    have eachOther : ∀ c ∈ chars.drop n, isDigit c :=
      fun c member => each c (List.mem_of_mem_drop member)
    have below := ofDigitChars_lt eachOther 0
    rwa [List.length_drop, Nat.zero_add, Nat.one_mul] at below
  have whole : Nat.ofDigitChars 10 chars 0 =
      10 ^ (chars.length - n) * Nat.ofDigitChars 10 (chars.take n) 0 +
        Nat.ofDigitChars 10 (chars.drop n) 0 := by
    rw [← List.length_drop, ← Nat.ofDigitChars_eq_ofDigitChars_zero,
      ← Nat.ofDigitChars_append, List.take_append_drop]
  rw [whole, Nat.mul_add_div (Nat.pow_pos (by decide)), Nat.div_eq_of_lt small,
    Nat.add_zero]

namespace LocalTime

open Text (Stops)

theorem readDigits_of_stops {rest : List Char} (stops : Stops isDigit rest) (limit : Nat)
    (value : Int) : readDigits limit value rest = .ok (value, rest) := by
  cases limit with
  | zero => cases rest <;> rfl
  | succ limit =>
      cases rest with
      | nil => rfl
      | cons c rest =>
          rw [readDigits, if_neg]
          simp [Text.stops_cons.1 stops]

/-- As many digits are read as the limit allows. -/
theorem readDigits_append {chars rest : List Char} (each : ∀ c ∈ chars, isDigit c)
    (stops : Stops isDigit rest) {limit start : Nat}
    (fits : (start + 1) * 10 ^ limit ≤ 0x8000000000000000) :
    readDigits limit start (chars ++ rest) =
      .ok (Nat.ofDigitChars 10 (chars.take limit) start, chars.drop limit ++ rest) := by
  induction chars generalizing limit start with
  | nil => simpa using readDigits_of_stops stops limit start
  | cons c chars ih =>
      cases limit with
      | zero => rfl
      | succ limit =>
          have digit := each c (by simp)
          have small := digit_lt digit
          have next : (start : Int) * 10 + (c.toNat - '0'.toNat : Nat) =
              (10 * start + (c.toNat - '0'.toNat) : Nat) := by
            push_cast
            ring
          have fitsNext := le_trans (next_mul_pow_le small limit) fits
          have positive : 1 ≤ 10 ^ limit := Nat.pow_pos (by decide)
          have below := Nat.le_mul_of_pos_right
            (10 * start + (c.toNat - '0'.toNat) + 1) positive
          rw [List.cons_append, readDigits, if_pos digit]
          simp only [next]
          rw [if_neg (by omega), ih (fun d member => each d (by simp [member])) fitsNext,
            List.take_succ_cons, List.drop_succ_cons, Nat.ofDigitChars_cons]

theorem readNumber_append {chars rest : List Char} (filled : chars ≠ [])
    (each : ∀ c ∈ chars, isDigit c) (stops : Stops isDigit rest) {limit : Nat}
    (fits : 10 ^ limit ≤ 0x8000000000000000) :
    readNumber limit (chars ++ rest) =
      .ok (Nat.ofDigitChars 10 (chars.take limit) 0, chars.drop limit ++ rest) := by
  cases chars with
  | nil => exact absurd rfl filled
  | cons c chars =>
      rw [List.cons_append, readNumber, if_pos (each c (by simp))]
      exact readDigits_append each stops (by simpa using fits)

end LocalTime

/-- A number written with digits, of which there are at least `shortest` and at most
`longest`. -/
structure Digits (shortest longest : Nat) where
  chars : List Char
  le_length : shortest ≤ chars.length
  length_le : chars.length ≤ longest
  isDigit_of_mem : ∀ c ∈ chars, isDigit c

namespace Digits

open Text (Stops)
open LocalTime (readNumber readField)

variable {shortest longest : Nat} (digits : Digits shortest longest) {rest : List Char}

/-- The number that is written. -/
def number : Nat := Nat.ofDigitChars 10 digits.chars 0

/-- The number that a text spells. -/
def ofText (text : String) (spelled : shortest ≤ text.toList.length ∧
    text.toList.length ≤ longest ∧ text.toList.all isDigit) : Digits shortest longest where
  chars := text.toList
  le_length := spelled.1
  length_le := spelled.2.1
  isDigit_of_mem := List.all_eq_true.1 spelled.2.2

theorem number_lt : digits.number < 10 ^ longest :=
  calc digits.number < (0 + 1) * 10 ^ digits.chars.length :=
        ofDigitChars_lt digits.isDigit_of_mem 0
    _ ≤ 10 ^ longest := by
        rw [Nat.one_mul]
        exact Nat.pow_le_pow_right (by decide) digits.length_le

theorem exists_eq_cons (positive : 1 ≤ shortest) :
    ∃ c others, digits.chars = c :: others ∧ isDigit c := by
  obtain ⟨c, others, whole⟩ := List.exists_cons_of_length_pos
    (positive.trans digits.le_length)
  exact ⟨c, others, whole, digits.isDigit_of_mem c (by simp [whole])⟩

theorem not_mem_chars {c : Char} (other : isDigit c = false) : c ∉ digits.chars := by
  intro member
  rw [digits.isDigit_of_mem c member] at other
  cases other

theorem readNumber_eq (positive : 1 ≤ shortest) (short : longest ≤ 4)
    (stops : Stops isDigit rest) :
    readNumber longest (digits.chars ++ rest) = .ok (digits.number, rest) := by
  obtain ⟨c, others, whole, _⟩ := digits.exists_eq_cons positive
  have fits : 10 ^ longest ≤ 0x8000000000000000 :=
    (Nat.pow_le_pow_right (by decide) short).trans (by decide)
  rw [LocalTime.readNumber_append (by simp [whole]) digits.isDigit_of_mem stops fits,
    List.take_of_length_le digits.length_le, List.drop_of_length_le digits.length_le]
  rfl

theorem dropWhile_isBlank_append (positive : 1 ≤ shortest) :
    (digits.chars ++ rest).dropWhile isBlank = digits.chars ++ rest := by
  obtain ⟨c, others, whole, digit⟩ := digits.exists_eq_cons positive
  refine Text.dropWhile_isBlank_eq_self fun d first => ?_
  rw [whole] at first
  cases first
  exact isBlank_of_isDigit digit

/-- A field that is reached is read on exactly if it lies between its bounds. -/
theorem readField_bind {α : Type} (positive : 1 ≤ shortest) (short : longest ≤ 4)
    (stops : Stops isDigit rest) (low high : Int)
    (next : Int × List Char → Except LocalTime.Fault α) :
    (readField low high longest (digits.chars ++ rest) >>= next) =
      if low ≤ digits.number ∧ digits.number ≤ high then next (digits.number, rest)
      else .error .outOfRange := by
  rw [readField, digits.dropWhile_isBlank_append positive,
    digits.readNumber_eq positive short stops]
  by_cases fits : low ≤ digits.number ∧ (digits.number : Int) ≤ high
  · simp only [bind, Except.bind, if_pos fits]
  · simp only [bind, Except.bind, if_neg fits]

end Digits

namespace LocalTime

theorem readYear_eq {shortest : Nat} (year : Digits shortest 4) {rest : List Char}
    (positive : 1 ≤ shortest) (stops : Text.Stops isDigit rest) :
    readYear (year.chars ++ rest) = .ok (year.number, rest) := by
  have below : year.number < 10000 := by simpa using year.number_lt
  have read := year.readNumber_eq positive le_rfl stops
  obtain ⟨c, others, whole, digit⟩ := year.exists_eq_cons positive
  have unsigned : c ≠ '-' ∧ c ≠ '+' := by
    constructor <;> rintro rfl <;> exact absurd digit (by decide)
  rw [readYear, year.dropWhile_isBlank_append positive]
  rw [whole, List.cons_append] at read ⊢
  split
  · next begins => exact absurd (List.cons.inj begins).1 unsigned.1
  · next begins => exact absurd (List.cons.inj begins).1 unsigned.2
  · have fits : -0x80000000 ≤ (year.number : Int) ∧ (year.number : Int) < 0x80000000 := by
      omega
    simp only [read, bind, Except.bind, if_pos fits]

theorem readMark_cons (mark : Char) (rest : List Char) :
    readMark mark (mark :: rest) = .ok rest := by
  rw [readMark, if_pos rfl]

theorem foldl_eq_ofDigitChars (chars : List Char) (start : Nat) :
    chars.foldl (fun sum c => sum * 10 + (c.toNat - '0'.toNat)) start =
      Nat.ofDigitChars 10 chars start := by
  induction chars generalizing start with
  | nil => rfl
  | cons c chars ih => rw [List.foldl_cons, ih, Nat.ofDigitChars_cons, Nat.mul_comm]

/-- The thousandths in a fraction of a second, whose further digits do not count. -/
def thousandths (fraction : List Char) : Nat :=
  1000 * Nat.ofDigitChars 10 fraction 0 / 10 ^ fraction.length

/-- The first three digits of a fraction are its thousandths. -/
theorem ofDigitChars_take_three {fraction : List Char} (filled : fraction ≠ [])
    (each : ∀ c ∈ fraction, isDigit c) :
    Nat.ofDigitChars 10 ((fraction ++ ['0', '0']).take 3) 0 = thousandths fraction := by
  obtain ⟨n, length⟩ := Nat.exists_eq_add_of_lt (List.length_pos_of_ne_nil filled)
  rw [Nat.zero_add] at length
  have eachPadded : ∀ c ∈ fraction ++ ['0', '0'], isDigit c := by
    intro c member
    rcases List.mem_append.1 member with digit | zero
    · exact each c digit
    · obtain rfl : c = '0' := by simpa using zero
      decide
  have padded : Nat.ofDigitChars 10 (fraction ++ ['0', '0']) 0 =
      100 * Nat.ofDigitChars 10 fraction 0 := by
    rw [Nat.ofDigitChars_append, Nat.ofDigitChars_cons, Nat.ofDigitChars_cons,
      Nat.ofDigitChars_nil]
    omega
  calc Nat.ofDigitChars 10 ((fraction ++ ['0', '0']).take 3) 0
      = 100 * Nat.ofDigitChars 10 fraction 0 / 10 ^ n := by
        rw [ofDigitChars_take eachPadded, padded]
        simp [length]
    _ = 10 * (100 * Nat.ofDigitChars 10 fraction 0) / (10 * 10 ^ n) :=
        (Nat.mul_div_mul_left _ _ (by decide)).symm
    _ = thousandths fraction := by rw [thousandths, length, pow_succ', ← Nat.mul_assoc]

/-- A fraction with the point in front of it, where there is one. -/
def fractionPart (fraction : List Char) : List Char :=
  if fraction = [] then [] else '.' :: fraction

theorem readFraction_fractionPart {fraction : List Char}
    (each : ∀ c ∈ fraction, isDigit c) :
    readFraction (fractionPart fraction) = .ok (thousandths fraction, []) := by
  rw [fractionPart]
  split
  · next empty =>
      subst empty
      rfl
  · next filled =>
      have fits : 10 ^ 9 ≤ 0x8000000000000000 := by decide
      have read := readNumber_append filled each Text.stops_nil fits
      rw [List.append_nil, List.append_nil] at read
      have kept : fraction.takeWhile isDigit = fraction := by simpa using each
      have nothing : (fraction.drop 9).dropWhile isDigit = [] :=
        List.dropWhile_eq_nil_iff.2 fun c member => each c (List.mem_of_mem_drop member)
      simp only [readFraction, read, bind, Except.bind, kept, nothing,
        foldl_eq_ofDigitChars, ofDigitChars_take_three filled each]
      rfl

/-- A local date-time as it is written: a year of up to four digits, a month, a day, an
hour, a minute and a second of up to two, and the digits of a fraction, if any. -/
structure Literal where
  year : Digits 1 4
  month : Digits 1 2
  day : Digits 1 2
  hour : Digits 1 2
  minute : Digits 1 2
  second : Digits 1 2
  fraction : List Char
  isDigit_of_mem_fraction : ∀ c ∈ fraction, isDigit c

namespace Literal

/-- The time of day as it is written. -/
def clock (l : Literal) : List Char :=
  l.hour.chars ++ ':' :: (l.minute.chars ++ ':' ::
    (l.second.chars ++ fractionPart l.fraction))

/-- The characters of a date-time. -/
def chars (l : Literal) : List Char :=
  l.year.chars ++ '-' :: (l.month.chars ++ '-' :: (l.day.chars ++ 'T' :: l.clock))

/-- The date that is written, whether it exists or not. -/
def date (l : Literal) : Date := ⟨l.year.number, l.month.number, l.day.number⟩

/-- The day exists, and so does the time of day.  There may be a leap second. -/
def InRange (l : Literal) : Prop :=
  l.date.InCalendar ∧ l.hour.number < 24 ∧ l.minute.number < 60 ∧ l.second.number ≤ 60

instance (l : Literal) : Decidable l.InRange := inferInstanceAs (Decidable (_ ∧ _))

/-- The local time that is written.  A leap second counts as milliseconds of the second
in front of it. -/
def time (l : Literal) : LocalTime where
  seconds := 86400 * l.date.daysSince1970 + 3600 * l.hour.number + 60 * l.minute.number +
    min l.second.number 59
  millis := 1000 * (l.second.number - 59) + thousandths l.fraction

theorem isValid_date (l : Literal) : l.date.isValid = true ↔ l.date.InCalendar := by
  have below : l.year.number < 10000 := by simpa using l.year.number_lt
  have years : Date.firstYear ≤ l.date.year ∧ l.date.year ≤ Date.lastYear := by
    change -262143 ≤ (l.year.number : Int) ∧ (l.year.number : Int) ≤ 262142
    omega
  simp [Date.isValid, Date.InCalendar, years, and_assoc]

theorem stops_fractionPart (fraction : List Char) :
    Text.Stops isDigit (fractionPart fraction) := by
  rw [fractionPart]
  split
  · exact Text.stops_nil
  · exact Text.stops_cons.2 rfl

/-- Also with a leap second, days, hours, minutes and seconds add up. -/
theorem millis_time (l : Literal) (leap : l.second.number ≤ 60) :
    1000 * l.time.seconds + l.time.millis =
      86400000 * l.date.daysSince1970 +
          1000 * (3600 * l.hour.number + 60 * l.minute.number + l.second.number) +
        thousandths l.fraction := by
  simp only [time]
  omega

/-- What is in range lies in the years of four digits. -/
theorem seconds_mem (l : Literal) (inRange : l.InRange) :
    86400 * Date.yearStart 0 ≤ l.time.seconds ∧
      l.time.seconds < 86400 * Date.yearStart 10000 := by
  obtain ⟨inCalendar, hour, minute, second⟩ := inRange
  have below : l.year.number < 10000 := by simpa using l.year.number_lt
  have begins : Date.yearStart 0 ≤ Date.yearStart l.date.year :=
    Date.yearStart_le (Int.natCast_nonneg _)
  have ends : Date.yearStart (l.date.year + 1) ≤ Date.yearStart 10000 := by
    refine Date.yearStart_le ?_
    change (l.year.number : Int) + 1 ≤ 10000
    omega
  have within := inCalendar.dayNumber_mem
  rw [inCalendar.dayNumber_eq] at within
  simp only [time]
  omega

/-- A date-time begins with a digit. -/
theorem exists_chars_eq_cons (l : Literal) :
    ∃ c rest, l.chars = c :: rest ∧ isDigit c := by
  obtain ⟨c, others, whole, digit⟩ := l.year.exists_eq_cons le_rfl
  exact ⟨c, _, by rw [chars, whole, List.cons_append], digit⟩

/-- The time of day ends a date-time. -/
theorem suffix_chars (l : Literal) : 'T' :: l.clock <:+ l.chars :=
  ⟨l.year.chars ++ '-' :: (l.month.chars ++ '-' :: l.day.chars), by simp [chars]⟩

/-- A date-time ends with digits. -/
theorem exists_digits_suffix (l : Literal) :
    ∃ digits, digits <:+ l.chars ∧ digits ≠ [] ∧ ∀ c ∈ digits, isDigit c := by
  have seconds : l.second.chars ++ fractionPart l.fraction <:+ l.clock :=
    ⟨l.hour.chars ++ ':' :: (l.minute.chars ++ [':']), by simp [clock]⟩
  have ends := seconds.trans ((List.suffix_cons _ _).trans l.suffix_chars)
  rw [fractionPart] at ends
  split at ends
  · obtain ⟨c, others, whole, _⟩ := l.second.exists_eq_cons le_rfl
    rw [List.append_nil] at ends
    exact ⟨l.second.chars, ends, by simp [whole], l.second.isDigit_of_mem⟩
  · next filled =>
      have fraction := (List.suffix_cons '.' l.fraction).trans
        (List.suffix_append l.second.chars _)
      exact ⟨l.fraction, fraction.trans ends, filled, l.isDigit_of_mem_fraction⟩

theorem le_length_clock (l : Literal) : 5 ≤ l.clock.length := by
  have hour := l.hour.le_length
  have minute := l.minute.le_length
  have second := l.second.le_length
  simp only [clock, List.length_append, List.length_cons]
  omega

/-- There is no sign in a time of day. -/
theorem not_mem_clock (l : Literal) {sign : Char} (isSign : sign = '+' ∨ sign = '-') :
    sign ∉ l.clock := by
  have other : isDigit sign = false := by rcases isSign with rfl | rfl <;> rfl
  have outside : sign ∉ fractionPart l.fraction := by
    rw [fractionPart]
    split
    · exact List.not_mem_nil
    · rw [List.mem_cons]
      rintro (rfl | member)
      · rcases isSign with point | point <;> cases point
      · rw [l.isDigit_of_mem_fraction sign member] at other
        cases other
  rcases isSign with rfl | rfl <;>
    simp [clock, l.hour.not_mem_chars other, l.minute.not_mem_chars other,
      l.second.not_mem_chars other, outside]

/-- A date-time is read exactly if its day and its time of day exist. -/
theorem read_chars (l : Literal) :
    LocalTime.read l.chars = if l.InRange then .ok l.time else .error .outOfRange := by
  have stops : ∀ {mark : Char} {rest : List Char}, isDigit mark = false →
      Text.Stops isDigit (mark :: rest) := fun other => Text.stops_cons.2 other
  have ok_bind : ∀ {α β : Type} (a : α) (next : α → Except Fault β),
      (Except.ok a >>= next) = next a := fun _ _ => rfl
  rw [LocalTime.read, chars, readYear_eq l.year le_rfl (stops rfl), ok_bind]
  simp only [readMark_cons, ok_bind]
  rw [l.month.readField_bind le_rfl (by decide) (stops rfl)]
  simp only [readMark_cons, ok_bind]
  rw [l.day.readField_bind le_rfl (by decide) (stops rfl)]
  simp only [readMark_cons, ok_bind, clock]
  rw [l.hour.readField_bind le_rfl (by decide) (stops rfl)]
  simp only [readMark_cons, ok_bind]
  rw [l.minute.readField_bind le_rfl (by decide) (stops rfl)]
  simp only [readMark_cons, ok_bind]
  rw [l.second.readField_bind le_rfl (by decide) (stops_fractionPart _)]
  simp only [readFraction_fractionPart l.isDigit_of_mem_fraction, ok_bind,
    List.isEmpty_nil, Bool.not_true, Bool.false_eq_true, if_false]
  have date_eq : Date.mk l.year.number (l.month.number : Int).toNat
      (l.day.number : Int).toNat = l.date := rfl
  rw [date_eq]
  by_cases inRange : l.InRange
  · have valid := l.isValid_date.2 inRange.1
    have number_eq := Date.InCalendar.dayNumber_eq inRange.1
    have days := Date.monthLength_le l.date.year l.date.month
    obtain ⟨⟨month, day⟩, hour, minute, second⟩ := id inRange
    change 1 ≤ l.month.number ∧ l.month.number ≤ 12 at month
    change 1 ≤ l.day.number ∧ l.day.number ≤ _ at day
    rw [if_pos (by omega), if_pos (by omega), if_pos (by omega), if_pos (by omega),
      if_pos (by omega), if_neg (by simp [valid]), if_pos inRange, number_eq, time]
    split
    · congr 2 <;> omega
    · congr 2 <;> omega
  · rw [if_neg inRange]
    by_cases valid : l.date.isValid
    · -- The day exists, so that it is the time of day that does not.
      have outside : ¬ (l.hour.number < 24 ∧ l.minute.number < 60 ∧
          l.second.number ≤ 60) := fun clock => inRange ⟨l.isValid_date.1 valid, clock⟩
      split_ifs <;> first | rfl | omega
    · simp [valid]

end Literal

end LocalTime

end XmlRecords
