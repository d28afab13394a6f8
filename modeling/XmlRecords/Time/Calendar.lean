import XmlRecords.Text.Blank
import XmlRecords.Text.Digit

/-!
# Dates and times of day

Days are counted in the proleptic Gregorian calendar from 1970-01-01 on.  A
local date-time is a count of seconds on the clock of some zone, still to be
placed on the common time line, and a count of milliseconds that stays below
two seconds: the second one belongs to a leap second.

A date-time literal is read from left to right, each number as soon as it is
reached, so the leftmost fault is the one reported.  Whether the day exists in
its month is decided last.
-/

namespace XmlRecords

/-- A year, a month from 1 and a day from 1. -/
structure Date where
  year : Int
  month : Nat
  day : Nat
  deriving DecidableEq, Repr

namespace Date

/-- Recognise the years with a day more. -/
def isLeapYear (year : Int) : Bool :=
  year % 4 == 0 && (year % 100 != 0 || year % 400 == 0)

/-- The number of days in a month. -/
def monthLength (year : Int) (month : Nat) : Nat :=
  if month == 2 then if isLeapYear year then 29 else 28
  else if month == 4 || month == 6 || month == 9 || month == 11 then 30
  else 31

/-- The first and the last year that date-times are kept for. -/
def firstYear : Int := -262143
def lastYear : Int := 262142

/-- Decide whether a date exists. -/
def isValid (d : Date) : Bool :=
  firstYear ≤ d.year && d.year ≤ lastYear && 1 ≤ d.month && d.month ≤ 12 &&
    1 ≤ d.day && d.day ≤ monthLength d.year d.month

/-- The days from 1970-01-01 to the first day of a year. -/
def yearStart (year : Int) : Int :=
  let full := year - 1
  365 * full + full / 4 - full / 100 + full / 400 - 719162

/-- The days of a year in front of a month. -/
def daysBeforeMonth (year : Int) (month : Nat) : Nat :=
  (List.range (month - 1)).foldl (fun days earlier =>
    days + monthLength year (earlier + 1)) 0

/-- The days from 1970-01-01 to a date. -/
def dayNumber (d : Date) : Int :=
  yearStart d.year + daysBeforeMonth d.year d.month + d.day - 1

end Date

/-- A count of seconds on a local clock, zero at the start of 1970, and of
milliseconds after it. -/
structure LocalTime where
  seconds : Int
  millis : Nat
  deriving DecidableEq, Repr

namespace LocalTime

/-- Why a text is not a date-time. -/
inductive Fault where
  | invalid
  | premature
  | trailing
  | outOfRange
  deriving DecidableEq, Repr

/-- The wording of a fault. -/
def Fault.message : Fault → String
  | .invalid => "input contains invalid characters"
  | .premature => "premature end of input"
  | .trailing => "trailing input"
  | .outOfRange => "input is out of range"

/-- The first and the last second of the years that date-times are kept for. -/
def firstSecond : Int := 86400 * Date.yearStart Date.firstYear
def lastSecond : Int := 86400 * Date.yearStart (Date.lastYear + 1) - 1

/-- Read up to `limit` digits onto a number that has to fit 64 bits. -/
def readDigits : Nat → Int → List Char → Except Fault (Int × List Char)
  | limit + 1, value, c :: rest =>
      if isDigit c then
        let next := value * 10 + (c.toNat - '0'.toNat : Nat)
        if 0x8000000000000000 ≤ next then .error .outOfRange
        else readDigits limit next rest
      else .ok (value, c :: rest)
  | _, value, rest => .ok (value, rest)

/-- Read at least one digit and at most `limit`. -/
def readNumber (limit : Nat) : List Char → Except Fault (Int × List Char)
  | [] => .error .premature
  | c :: rest =>
      if isDigit c then readDigits limit 0 (c :: rest) else .error .invalid

/-- Read a number between bounds after any white space. -/
def readField (low high : Int) (limit : Nat) (text : List Char) :
    Except Fault (Int × List Char) := do
  let (value, rest) ← readNumber limit (text.dropWhile isBlank)
  if low ≤ value ∧ value ≤ high then .ok (value, rest)
  else .error .outOfRange

/-- Read a year after any white space: up to four digits, or a sign and any
number of them. -/
def readYear (text : List Char) : Except Fault (Int × List Char) := do
  let text := text.dropWhile isBlank
  let (value, rest) ←
    match text with
    | '-' :: digits =>
        (readNumber digits.length digits).map fun (value, rest) =>
          (-value, rest)
    | '+' :: digits => readNumber digits.length digits
    | _ => readNumber 4 text
  if -0x80000000 ≤ value ∧ value < 0x80000000 then .ok (value, rest)
  else .error .outOfRange

/-- Read a fixed character. -/
def readMark (mark : Char) : List Char → Except Fault (List Char)
  | [] => .error .premature
  | c :: rest => if c = mark then .ok rest else .error .invalid

/-- Read a fraction of a second, if one begins here, in milliseconds.  Digits
after the third do not count. -/
def readFraction : List Char → Except Fault (Nat × List Char)
  | '.' :: digits => do
      let (_, rest) ← readNumber 9 digits
      let fraction := digits.takeWhile isDigit
      let millis := ((fraction ++ ['0', '0']).take 3).foldl
        (fun sum c => sum * 10 + (c.toNat - '0'.toNat)) 0
      return (millis, rest.dropWhile isDigit)
  | rest => .ok (0, rest)

/-- Read a date-time.  A second 60 is the last second with one thousand
milliseconds more. -/
def read (text : List Char) : Except Fault LocalTime := do
  let (year, rest) ← readYear text
  let rest ← readMark '-' rest
  let (month, rest) ← readField 1 12 2 rest
  let rest ← readMark '-' rest
  let (day, rest) ← readField 1 31 2 rest
  let rest ← readMark 'T' rest
  let (hour, rest) ← readField 0 23 2 rest
  let rest ← readMark ':' rest
  let (minute, rest) ← readField 0 59 2 rest
  let rest ← readMark ':' rest
  let (second, rest) ← readField 0 60 2 rest
  let (millis, rest) ← readFraction rest
  if !rest.isEmpty then .error .trailing
  else
    let date : Date := ⟨year, month.toNat, day.toNat⟩
    if !date.isValid then .error .outOfRange
    else
      let seconds := date.dayNumber * 86400 + hour * 3600 + minute * 60
      if second = 60 then .ok ⟨seconds + 59, 1000 + millis⟩
      else .ok ⟨seconds + second, millis⟩

end LocalTime

end XmlRecords
