import XmlRecords.Number.Integer
import XmlRecords.Text.Blank

/-!
# Offsets from the common time line

An offset is a sign, hours, a colon and minutes, all of which count in the
direction of the sign.  The hours and the minutes are whole numbers and may have
a sign of their own.  The whole stays below one day.
-/

namespace XmlRecords

/-- The seconds by which a clock is ahead of the common time line. -/
structure Offset where
  seconds : Int
  deriving DecidableEq, Repr

namespace Offset

/-- Read hours, a colon and minutes in the direction of a sign. -/
def readSigned? (sign : Int) (text : List Char) : Option Offset := do
  let (hours, minutes) ← Text.splitOnce ':' text
  let hours ← ((Bounds.signed 32).read 10 hours).toOption
  let minutes ← ((Bounds.signed 32).read 10 minutes).toOption
  if 60 ≤ minutes then none
  else
    let seconds := sign * (hours * 3600 + minutes * 60)
    if -86400 < seconds ∧ seconds < 86400 then some ⟨seconds⟩ else none

/-- Read an offset with its sign, or the letter for none. -/
def read? : List Char → Option Offset
  | ['Z'] => some ⟨0⟩
  | '+' :: rest => readSigned? 1 rest
  | '-' :: rest => readSigned? (-1) rest
  | _ => none

/-- Write a number below a hundred with two digits. -/
def twoDigits (n : Nat) : String :=
  if n < 10 then "0" ++ toString n else toString n

/-- Write an offset of whole minutes with its sign. -/
def text (offset : Offset) : String :=
  let minutes := offset.seconds.natAbs / 60
  (if offset.seconds < 0 then "-" else "+") ++ twoDigits (minutes / 60) ++
    ":" ++ twoDigits (minutes % 60)

end Offset

end XmlRecords
