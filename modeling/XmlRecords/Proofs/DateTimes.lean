import XmlRecords.Proofs.LocalTimes
import XmlRecords.Proofs.ZoneOffsets
import XmlRecords.Time.Timestamp

/-!
# The instants of date-times

A date-time with an offset denotes the instant at which clocks that are ahead by the
offset show it.  Without an offset it is that of the zone.  What looks like a date-time
but names a day, a time of day or an offset that does not exist is refused.
-/

namespace XmlRecords

namespace Digits

theorem exists_pair (digits : Digits 2 2) :
    ∃ first second, digits.chars = [first, second] ∧ isDigit first ∧ isDigit second := by
  obtain ⟨first, second, whole⟩ := List.length_eq_two.1
    (le_antisymm digits.length_le digits.le_length)
  have each := digits.isDigit_of_mem
  rw [whole] at each
  exact ⟨first, second, whole, each first (by simp), each second (by simp)⟩

end Digits

namespace Offset

/-- Hours and minutes of digits are what they are written as. -/
theorem isClock_digits_iff {hours minutes : Digits 2 2} {hour minute : Int} :
    IsClock (hours.chars ++ ':' :: minutes.chars) hour minute ↔
      (hours.number < 24 ∧ minutes.number < 60) ∧
        hour = hours.number ∧ minute = minutes.number := by
  have colonless : ∀ {front : List Char}, (∀ c ∈ front, isDigit c) → ':' ∉ front :=
    fun each member => absurd (each _ member) (by decide)
  have unsigned : ∀ c, isDigit c = false → c ≠ ':' →
      c ∉ hours.chars ++ ':' :: minutes.chars := by
    intro c other noColon
    simp [hours.not_mem_chars other, minutes.not_mem_chars other, noColon]
  have filled : ∀ digits : Digits 2 2, digits.chars ≠ [] := by
    intro digits
    obtain ⟨_, _, whole, _⟩ := digits.exists_pair
    simp [whole]
  rw [isClock_iff_of_not_mem (unsigned '+' rfl (by decide)) (unsigned '-' rfl (by decide))]
  constructor
  · rintro ⟨front, back, whole, ⟨_, eachFront⟩, _, rfl, rfl, small, below⟩
    have split := Text.splitOnce_append back (colonless eachFront)
    rw [← whole, Text.splitOnce_append _ (colonless hours.isDigit_of_mem)] at split
    obtain ⟨rfl, rfl⟩ : hours.chars = front ∧ minutes.chars = back := by simpa using split
    change minutes.number < 60 at small
    change 60 * hours.number + minutes.number < 24 * 60 at below
    exact ⟨⟨by omega, small⟩, rfl, rfl⟩
  · rintro ⟨⟨hoursBelow, minutesBelow⟩, rfl, rfl⟩
    refine ⟨hours.chars, minutes.chars, rfl, ⟨filled hours, hours.isDigit_of_mem⟩,
      ⟨filled minutes, minutes.isDigit_of_mem⟩, rfl, rfl, minutesBelow, ?_⟩
    change 60 * hours.number + minutes.number < 24 * 60
    omega

end Offset

/-- A zone whose clocks are always ahead by the same number of seconds, less than a
day. -/
inductive Zone.IsFixed : Zone → Int → Prop where
  | utc : Zone.IsFixed .utc 0
  | fixed {offset : Offset} (below : offset.seconds.natAbs < 86400) :
      Zone.IsFixed (.fixed offset) offset.seconds

namespace Zone.IsFixed

variable {zone : Zone} {ahead : Int}

theorem offsetAt?_eq (fixed : zone.IsFixed ahead) (second : Int) :
    zone.offsetAt? second = some ahead := by
  cases fixed <;> rfl

theorem natAbs_lt (fixed : zone.IsFixed ahead) : ahead.natAbs < 86400 := by
  cases fixed with
  | utc => decide
  | fixed below => exact below

/-- What is read as an offset from a text stays below a day. -/
theorem of_read {text : String} {offset : Offset}
    (read : Zone.read text = .ok (.fixed offset)) :
    (Zone.fixed offset).IsFixed offset.seconds := by
  have begins : ∃ sign rest, Text.trimChars text.toList = sign :: rest ∧
      (sign = '+' ∨ sign = '-') := by
    rw [Zone.read] at read
    split at read
    · cases read
    · split at read
      · next signed =>
          cases chars : Text.trimChars text.toList with
          | nil => simp [chars] at signed
          | cons sign rest => exact ⟨sign, rest, rfl, by simpa [chars] using signed⟩
      · split at read <;> cases read
  obtain ⟨sign, rest, trimmed, isSign⟩ := begins
  obtain ⟨hours, minutes, isClock, same⟩ := (read_of_sign_eq_ok_iff trimmed isSign).1 read
  have below := isClock.below
  cases same
  refine .fixed ?_
  rcases isSign with rfl | rfl <;> simp only [Offset.direction] <;> norm_num <;> omega

end Zone.IsFixed

namespace Timestamp

/-- What may stand behind a local date-time. -/
inductive Suffix where
  | none
  | utc
  | offset (sign : Char) (isSign : sign = '+' ∨ sign = '-') (hours minutes : Digits 2 2)

namespace Suffix

/-- The characters of a suffix. -/
def chars : Suffix → List Char
  | .none => []
  | .utc => ['Z']
  | .offset sign _ hours minutes => sign :: (hours.chars ++ ':' :: minutes.chars)

/-- The characters of a suffix, where there is one. -/
def chars? : Suffix → Option (List Char)
  | .none => Option.none
  | given => some given.chars

/-- The hours of an offset stay below a day, and its minutes below an hour. -/
def InRange : Suffix → Prop
  | .offset _ _ hours minutes => hours.number < 24 ∧ minutes.number < 60
  | _ => True

instance : DecidablePred InRange
  | .none => .isTrue trivial
  | .utc => .isTrue trivial
  | .offset _ _ _ _ => inferInstanceAs (Decidable (_ ∧ _))

/-- The minutes by which clocks are ahead, where there is a suffix. -/
def minutes? : Suffix → Option Int
  | .none => Option.none
  | .utc => some 0
  | .offset sign _ hours minutes =>
      some (Offset.direction sign * (60 * hours.number + minutes.number))

end Suffix

/-- A date-time as it is written: a local one, and perhaps a suffix. -/
structure Literal extends LocalTime.Literal where
  suffix : Suffix

namespace Literal

/-- The characters of a date-time. -/
def chars (l : Literal) : List Char :=
  l.toLiteral.chars ++ l.suffix.chars

/-- The text of a date-time. -/
def text (l : Literal) : String := String.ofList l.chars

/-- The day, the time of day and the offset exist. -/
def InRange (l : Literal) : Prop := l.toLiteral.InRange ∧ l.suffix.InRange

instance (l : Literal) : Decidable l.InRange := inferInstanceAs (Decidable (_ ∧ _))

/-- The milliseconds since 1970 of the instant that is denoted, in a zone whose clocks
are ahead by some seconds. -/
def instant (l : Literal) (ahead : Int) : Int :=
  86400000 * l.date.daysSince1970 +
      1000 * (3600 * l.hour.number + 60 * l.minute.number + l.second.number) +
    LocalTime.thousandths l.fraction -
      1000 * ((l.suffix.minutes?.map (60 * ·)).getD ahead)

end Literal

theorem exists_sign_of_isOffsetShape {text : List Char} (shape : isOffsetShape text) :
    ∃ sign ∈ text, sign = '+' ∨ sign = '-' := by
  rw [isOffsetShape.eq_def] at shape
  split at shape
  · next sign _ _ _ _ _ =>
      simp only [Bool.and_eq_true, Bool.or_eq_true, beq_iff_eq] at shape
      exact ⟨sign, by simp, shape.1.1.1.1.1⟩
  · cases shape

theorem isDecimalDigit_of_isDigit {c : Char} (digit : isDigit c) : isDecimalDigit c := by
  have range := toNat_of_isDigit digit
  refine List.any_eq_true.2 ⟨0x30, by decide, ?_⟩
  simpa using ⟨range.1, range.2⟩

namespace Suffix

theorem isOffsetShape_chars {sign : Char} (isSign : sign = '+' ∨ sign = '-')
    (hours minutes : Digits 2 2) :
    isOffsetShape (chars (.offset sign isSign hours minutes)) ∧
      (chars (.offset sign isSign hours minutes)).length = 6 := by
  obtain ⟨a, b, hours_eq, digitA, digitB⟩ := hours.exists_pair
  obtain ⟨c, d, minutes_eq, digitC, digitD⟩ := minutes.exists_pair
  rw [chars, hours_eq, minutes_eq]
  refine ⟨?_, rfl⟩
  change isOffsetShape [sign, a, b, ':', c, d]
  rw [isOffsetShape, isDecimalDigit_of_isDigit digitA, isDecimalDigit_of_isDigit digitB,
    isDecimalDigit_of_isDigit digitC, isDecimalDigit_of_isDigit digitD]
  simpa using isSign

end Suffix

namespace Literal

/-- The last character is the letter for the common time line or a digit. -/
theorem getLast?_chars (l : Literal) :
    l.suffix = .utc ∧ l.chars.getLast? = some 'Z' ∨
      l.suffix ≠ .utc ∧ ∃ c, l.chars.getLast? = some c ∧ isDigit c := by
  have ends : l.suffix = .utc ∨ l.suffix ≠ .utc ∧
      ∃ digits, digits <:+ l.chars ∧ digits ≠ [] ∧ ∀ c ∈ digits, isDigit c := by
    rw [chars]
    cases l.suffix with
    | none =>
        refine .inr ⟨nofun, ?_⟩
        simpa [Suffix.chars] using l.toLiteral.exists_digits_suffix
    | utc => exact .inl rfl
    | offset sign isSign hours minutes =>
        obtain ⟨c, others, whole, _⟩ := minutes.exists_eq_cons (by decide)
        refine .inr ⟨nofun, minutes.chars, ?_, by simp [whole], minutes.isDigit_of_mem⟩
        exact ⟨l.toLiteral.chars ++ sign :: (hours.chars ++ [':']), by simp [Suffix.chars]⟩
  rcases ends with isUtc | ⟨notUtc, digits, ⟨front, whole⟩, filled, each⟩
  · exact .inl ⟨isUtc, by simp [chars, isUtc, Suffix.chars]⟩
  · refine .inr ⟨notUtc, digits.getLast filled, ?_, each _ (List.getLast_mem filled)⟩
    rw [← whole, List.getLast?_append_of_ne_nil _ filled,
      List.getLast?_eq_some_getLast filled]

theorem getLast?_chars_ne (l : Literal) (notUtc : l.suffix ≠ .utc) :
    l.chars.getLast? ≠ some 'Z' := by
  rcases l.getLast?_chars with ⟨isUtc, _⟩ | ⟨_, c, last, digit⟩
  · exact absurd isUtc notUtc
  · rw [last]
    rintro ⟨⟩
    cases digit

/-- White space is not trimmed from a date-time. -/
theorem trimChars_chars (l : Literal) : Text.trimChars l.chars = l.chars := by
  obtain ⟨first, rest, whole, digit⟩ := l.toLiteral.exists_chars_eq_cons
  refine Text.trimChars_eq_self ?_ ?_
  · rw [chars, whole]
    rintro c ⟨⟩
    exact isBlank_of_isDigit digit
  · rcases l.getLast?_chars with ⟨_, last⟩ | ⟨_, last, isLast, digit⟩
    · rw [last]
      rintro c ⟨⟩
      rfl
    · rw [isLast]
      rintro c ⟨⟩
      exact isBlank_of_isDigit digit

/-- Behind a time of day, the suffix is split off. -/
theorem splitOffset_chars (l : Literal) :
    splitOffset l.chars = (l.toLiteral.chars, l.suffix.chars?) := by
  rw [splitOffset]
  cases given : l.suffix with
  | utc => simp [chars, given, Suffix.chars, Suffix.chars?]
  | none =>
      -- The last six characters belong to the time of day, where no sign is.
      have ends : l.chars.drop (l.chars.length - 6) <:+ 'T' :: l.clock := by
        have clock := l.toLiteral.suffix_chars
        have enough := l.toLiteral.le_length_clock
        rw [chars, given, Suffix.chars, List.append_nil]
        refine List.suffix_of_suffix_length_le (List.drop_suffix _ _) clock ?_
        rw [List.length_drop, List.length_cons]
        omega
      have shapeless : ¬ isOffsetShape (l.chars.drop (l.chars.length - 6)) := by
        intro shape
        obtain ⟨sign, member, isSign⟩ := exists_sign_of_isOffsetShape shape
        rcases List.mem_cons.1 (ends.mem member) with rfl | inClock
        · rcases isSign with letter | letter <;> cases letter
        · exact l.toLiteral.not_mem_clock isSign inClock
      rw [if_neg (l.getLast?_chars_ne (by simp [given])), List.splitAt_eq]
      simp only [shapeless, Suffix.chars?]
      simp [chars, given, Suffix.chars]
  | offset sign isSign hours minutes =>
      obtain ⟨shape, length⟩ := Suffix.isOffsetShape_chars isSign hours minutes
      rw [if_neg (l.getLast?_chars_ne (by simp [given])), List.splitAt_eq, chars, given,
        List.length_append, length, Nat.add_sub_cancel, List.take_left, List.drop_left]
      simp only [shape, if_true, Suffix.chars?]

theorem contains_chars (l : Literal) : l.chars.contains 'T' := by
  have member := l.toLiteral.suffix_chars.mem (List.mem_cons_self ..)
  simp [chars, member]

end Literal

namespace Suffix

theorem read?_chars {sign : Char} (isSign : sign = '+' ∨ sign = '-')
    (hours minutes : Digits 2 2) :
    Offset.read? (chars (.offset sign isSign hours minutes)) =
      if InRange (.offset sign isSign hours minutes) then
        some ⟨60 * (Offset.direction sign * (60 * hours.number + minutes.number))⟩
      else Option.none := by
  have reads := fun offset =>
    @Offset.read?_eq_some_iff sign isSign (hours.chars ++ ':' :: minutes.chars) offset
  simp only [Offset.isClock_digits_iff] at reads
  rw [chars]
  split
  · next inRange =>
      refine (reads _).2 ⟨_, _, ⟨inRange, rfl, rfl⟩, ?_⟩
      rw [mul_left_comm]
  · next outside =>
      rw [Option.eq_none_iff_forall_ne_some]
      intro offset read
      obtain ⟨_, _, ⟨inRange, _⟩, _⟩ := (reads offset).1 read
      exact outside inRange

/-- An offset that is in range moves an instant by less than a day. -/
theorem InRange.natAbs_lt {suffix : Suffix} (inRange : suffix.InRange) {minutes : Int}
    (given : suffix.minutes? = some minutes) : (60 * minutes).natAbs < 86400 := by
  cases suffix with
  | none => cases given
  | utc =>
      cases given
      decide
  | offset sign isSign hours minutes' =>
      cases given
      obtain ⟨hoursBelow, minutesBelow⟩ := inRange
      rcases isSign with rfl | rfl <;> simp only [Offset.direction] <;> norm_num <;> omega

end Suffix

theorem firstSecond_eq : LocalTime.firstSecond = -8334601228800 := by decide

theorem lastSecond_eq : LocalTime.lastSecond = 8210266876799 := by decide

/-- The years of four digits lie well within those that date-times are kept for. -/
theorem place?_eq {time : LocalTime} {offset : Int} (below : offset.natAbs < 86400)
    (begins : 86400 * Date.yearStart 0 ≤ time.seconds)
    (ends : time.seconds < 86400 * Date.yearStart 10000) :
    place? time offset = some ((time.seconds - offset) * 1000 + time.millis) := by
  have starts : Date.yearStart 0 = -719528 ∧ Date.yearStart 10000 = 2932897 := by decide
  rw [place?, firstSecond_eq, lastSecond_eq]
  exact if_pos (by omega)

namespace Literal

variable {zone : Zone} {ahead : Int}

/-- What is taken from the suffix of a literal. -/
def given (l : Literal) : Except Error (Option Int) :=
  if l.suffix.InRange then .ok (l.suffix.minutes?.map (60 * ·))
  else .error (.literal .dateTime l.text (.offset (String.ofList l.suffix.chars)))

/-- What a literal without white space at its ends is read as. -/
theorem read_text_eq (l : Literal) :
    read zone l.text = (do
      let given ← l.given
      let time ← (LocalTime.read l.toLiteral.chars).mapError fun fault =>
        .literal .dateTime l.text (.dateTime fault)
      match (given.or (zone.offsetAt? time.seconds)).bind (place? time) with
      | some millis => .ok millis
      | none => .error (.literal .dateTime l.text .skippedTime)) := by
  rw [read, text, String.toList_ofList, l.trimChars_chars, l.contains_chars,
    l.splitOffset_chars, given]
  cases l.suffix with
  | none => rfl
  | utc => rfl
  | offset sign isSign hours minutes =>
      by_cases inRange : Suffix.InRange (.offset sign isSign hours minutes)
      · simp only [Suffix.chars?, Suffix.read?_chars, if_pos inRange]
        rfl
      · simp only [Suffix.chars?, Suffix.read?_chars, if_neg inRange]
        rfl

/-- Where the clocks of a zone are always ahead by the same time, a date-time whose day,
time of day and offset exist is read as its instant.  Every other one is refused. -/
theorem read_text (fixed : zone.IsFixed ahead) (l : Literal) :
    (l.InRange → read zone l.text = .ok (l.instant ahead)) ∧
      (¬ l.InRange → ∃ fault,
        read zone l.text = .error (.literal .dateTime l.text fault)) := by
  rw [read_text_eq, given, LocalTime.Literal.read_chars]
  simp only [fixed.offsetAt?_eq, Option.or_some]
  constructor
  · rintro ⟨localInRange, suffixInRange⟩
    obtain ⟨begins, ends⟩ := l.toLiteral.seconds_mem localInRange
    have below : ((l.suffix.minutes?.map (60 * ·)).getD ahead).natAbs < 86400 := by
      cases given : l.suffix.minutes? with
      | none => exact fixed.natAbs_lt
      | some minutes => exact suffixInRange.natAbs_lt given
    rw [if_pos localInRange, if_pos suffixInRange]
    simp only [bind, Except.bind, Except.mapError, Option.bind_some,
      place?_eq below begins ends]
    rw [instant, ← l.toLiteral.millis_time localInRange.2.2.2]
    congr 1
    ring
  · intro outside
    by_cases suffixInRange : l.suffix.InRange
    · have localOutside : ¬ l.toLiteral.InRange :=
        fun localInRange => outside ⟨localInRange, suffixInRange⟩
      rw [if_pos suffixInRange, if_neg localOutside]
      exact ⟨_, rfl⟩
    · rw [if_neg suffixInRange]
      exact ⟨_, rfl⟩

/-- The last half second on a day of the last month of 1969, half an hour to the west. -/
def beforeMidnight (day : Digits 1 2) : Literal where
  year := .ofText "1969" (by decide)
  month := .ofText "12" (by decide)
  day := day
  hour := .ofText "23" (by decide)
  minute := .ofText "59" (by decide)
  second := .ofText "59" (by decide)
  fraction := "5".toList
  isDigit_of_mem_fraction := List.all_eq_true.1 (by decide)
  suffix := .offset '-' (.inr rfl) (.ofText "00" (by decide)) (.ofText "30" (by decide))

/-- Half an hour to the west, the last half second of 1969 belongs to 1970. -/
theorem read_text_eve :
    read (.fixed ⟨3600⟩) "1969-12-31T23:59:59.5-00:30" = .ok 1799500 ∧
      ∃ fault, read (.fixed ⟨3600⟩) "1969-12-32T23:59:59.5-00:30" =
        .error (.literal .dateTime "1969-12-32T23:59:59.5-00:30" fault) := by
  have fixed : (Zone.fixed ⟨3600⟩).IsFixed 3600 := .fixed (by decide)
  let eve := beforeMidnight (.ofText "31" (by decide))
  let noDay := beforeMidnight (.ofText "32" (by decide))
  have instant_eq : eve.instant 3600 = 1799500 := by decide +kernel
  have outside : ¬ noDay.InRange := by decide
  exact ⟨instant_eq ▸ (read_text fixed eve).1 (by decide), (read_text fixed noDay).2 outside⟩

end Literal

end Timestamp

end XmlRecords
