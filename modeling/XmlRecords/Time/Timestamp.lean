import XmlRecords.Time.Zone

/-!
# Timestamps

A timestamp is a count of milliseconds from the start of 1970 on the common time
line.  A literal without the letter T is such a count; any other one is a local
date-time, which an offset at its end or else the zone at hand places on the
time line.
-/

namespace XmlRecords.Timestamp

/-- Recognise a sign, two digits, a colon and two digits; digits of any script
will do. -/
def isOffsetShape : List Char → Bool
  | [sign, a, b, colon, c, d] =>
      (sign == '+' || sign == '-') && isDecimalDigit a && isDecimalDigit b &&
        colon == ':' && isDecimalDigit c && isDecimalDigit d
  | _ => false

/-- Split off what looks like an offset at the end of a text. -/
def splitOffset (text : List Char) : List Char × Option (List Char) :=
  if text.getLast? = some 'Z' then (text.dropLast, some ['Z'])
  else
    let (front, back) := text.splitAt (text.length - 6)
    if isOffsetShape back then (front, some back) else (text, none)

/-- Place a local time under an offset, provided that it stays within the years
that date-times are kept for. -/
def place? (time : LocalTime) (offset : Int) : Option Int :=
  let second := time.seconds - offset
  if LocalTime.firstSecond ≤ second ∧ second ≤ LocalTime.lastSecond then
    some (second * 1000 + time.millis)
  else none

/-- Read a timestamp. -/
def read (zone : Zone) (text : String) : Except Error Int :=
  let chars := Text.trimChars text.toList
  let trimmed := String.ofList chars
  if !chars.contains 'T' then
    ((Bounds.signed 64).read 10 chars).mapError fun fault =>
      .literal .long trimmed (.integer fault)
  else do
    let (front, back) := splitOffset chars
    let given ←
      match back with
      | none => pure none
      | some suffix =>
          match Offset.read? suffix with
          | some offset => pure (some offset.seconds)
          | none =>
              throw (.literal .dateTime trimmed
                (.offset (String.ofList suffix)))
    let time ← (LocalTime.read front).mapError fun fault =>
      .literal .dateTime trimmed (.dateTime fault)
    let offset? := given.or (zone.offsetAt? time.seconds)
    match offset?.bind (place? time) with
    | some millis => .ok millis
    | none => .error (.literal .dateTime trimmed .skippedTime)

end XmlRecords.Timestamp
