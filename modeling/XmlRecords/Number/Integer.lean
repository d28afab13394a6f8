import XmlRecords.Text.Digit

/-!
# Whole numbers

A whole number is an optional sign followed by digits, read from the left, and
it has to lie between two bounds.  The first character that is no digit and the
first digit that leaves the bounds are both faults; whichever comes first is
the one reported.  A minus sign is a sign only where negative numbers exist.
-/

namespace XmlRecords

/-- Why a text is not a whole number between the bounds. -/
inductive IntegerFault where
  | empty
  | invalidDigit
  | tooLarge
  | tooSmall
  deriving DecidableEq, Repr

/-- The wording of an integer fault. -/
def IntegerFault.message : IntegerFault → String
  | .empty => "cannot parse integer from empty string"
  | .invalidDigit => "invalid digit found in string"
  | .tooLarge => "number too large to fit in target type"
  | .tooSmall => "number too small to fit in target type"

/-- The least and the greatest number that a reader accepts. -/
structure Bounds where
  low : Int
  high : Int
  deriving DecidableEq, Repr

namespace Bounds

/-- The bounds of signed numbers of a width. -/
def signed (width : Nat) : Bounds :=
  let half : Int := Nat.pow 2 (width - 1)
  ⟨-half, half - 1⟩

/-- The bounds of unsigned numbers of a width. -/
def unsigned (width : Nat) : Bounds := ⟨0, (Nat.pow 2 width : Int) - 1⟩

/-- Read digits of a radix onto a number, away from zero in the direction of
the sign. -/
def readDigits (bounds : Bounds) (radix : Nat) (sign : Int) :
    Int → List Char → Except IntegerFault Int
  | value, [] => .ok value
  | value, c :: rest =>
      match digitValue? radix c with
      | none => .error .invalidDigit
      | some digit =>
          let next := value * radix + sign * digit
          if next < bounds.low then .error .tooSmall
          else if bounds.high < next then .error .tooLarge
          else readDigits bounds radix sign next rest

/-- Read an optional sign and at least one digit of a radix. -/
def read (bounds : Bounds) (radix : Nat) : List Char → Except IntegerFault Int
  | [] => .error .empty
  | ['+'] | ['-'] => .error .invalidDigit
  | '+' :: digits => bounds.readDigits radix 1 0 digits
  | '-' :: digits =>
      if bounds.low < 0 then bounds.readDigits radix (-1) 0 digits
      else .error .invalidDigit
  | digits => bounds.readDigits radix 1 0 digits

end Bounds

end XmlRecords
