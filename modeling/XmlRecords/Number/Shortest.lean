import XmlRecords.Number.Binary

/-!
# The shortest decimal text of a binary number

Among the decimal numbers that round to a given binary number, the one with the
fewest digits is written, and of several such the nearest.  Candidates are the
two neighbours of the number on the grid of each digit count, compared in exact
arithmetic.  How the digits are laid out is a separate decision, held in one
record.
-/

namespace XmlRecords

/-- Digits and the power of ten that multiplies them. -/
structure ShortDecimal where
  digits : Nat
  exponent : Int
  deriving DecidableEq, Repr

namespace Shortest

/-- A positive number between two bounds, all over one denominator.  A decimal
number reads back as the number when it lies between the bounds, which belong to
the range only where `closed`. -/
structure Range where
  low : Nat
  value : Nat
  high : Nat
  denominator : Nat
  closed : Bool
  deriving DecidableEq, Repr

/-- The range of the numbers that round to a finite positive code.  Below a
power of two the neighbour is half as far away. -/
def Range.ofCode (format : BinaryFormat) (code : Nat) : Range :=
  let (significand, exponent) := format.unpack code
  let narrow :=
    significand = Nat.pow 2 (format.precision - 1) ∧ format.leastExponent < exponent
  let below := if narrow then 1 else 2
  let (factor, denominator) := BinaryFormat.scale 1 1 (exponent - 2)
  { low := (4 * significand - below) * factor
    value := 4 * significand * factor
    high := (4 * significand + 2) * factor
    denominator
    closed := significand % 2 = 0 }

/-- Compare a decimal number with a quotient. -/
def compareDecimal (d : ShortDecimal) (numerator denominator : Nat) : Ordering :=
  if 0 ≤ d.exponent then
    compare (d.digits * Nat.pow 10 d.exponent.toNat * denominator) numerator
  else
    compare (d.digits * denominator)
      (numerator * Nat.pow 10 (-d.exponent).toNat)

/-- Decide whether a decimal number reads back as the middle of a range. -/
def Range.holds (range : Range) (d : ShortDecimal) : Bool :=
  match compareDecimal d range.low range.denominator,
    compareDecimal d range.high range.denominator with
  | .gt, .lt => true
  | .eq, .lt | .gt, .eq => range.closed
  | _, _ => false

/-- Step up to the greatest power of ten that does not exceed a quotient. -/
def raiseExponent (numerator denominator : Nat) : Nat → Int → Int
  | 0, exponent => exponent
  | steps + 1, exponent =>
      if compareDecimal ⟨1, exponent + 1⟩ numerator denominator = .gt then
        exponent
      else raiseExponent numerator denominator steps (exponent + 1)

/-- The exponent of the leading decimal digit of a quotient. -/
def leadingExponent (numerator denominator : Nat) : Int :=
  let magnitude : Int := (numerator.log2 : Int) - denominator.log2
  raiseExponent numerator denominator 4 (magnitude * 30103 / 100000 - 2)

/-- Choose between the two neighbours of a number on the grid of a power of
ten: the nearer one that reads back, and of two equally near the even one. -/
def nearestOnGrid (range : Range) (exponent : Int) : Option ShortDecimal :=
  let (top, bottom) :=
    if 0 ≤ exponent then
      (range.value, range.denominator * Nat.pow 10 exponent.toNat)
    else (range.value * Nat.pow 10 (-exponent).toNat, range.denominator)
  let below : ShortDecimal := ⟨top / bottom, exponent⟩
  let above : ShortDecimal := ⟨top / bottom + 1, exponent⟩
  let rest := top % bottom
  let upFirst :=
    bottom < 2 * rest || (2 * rest == bottom && below.digits % 2 == 1)
  let (first, second) := if upFirst then (above, below) else (below, above)
  if range.holds first then some first
  else if range.holds second then some second
  else none

/-- Search the grids from the coarsest to the finest. -/
def search (range : Range) (lead : Int) : Nat → Nat → ShortDecimal
  | 0, count => ⟨range.value / range.denominator, lead - count⟩
  | left + 1, count =>
      match nearestOnGrid range (lead - count) with
      | some found => found
      | none => search range lead left (count + 1)

/-- The shortest decimal number that rounds to a finite positive code. -/
def ofCode (format : BinaryFormat) (code : Nat) : ShortDecimal :=
  let range := Range.ofCode format code
  search range (leadingExponent range.value range.denominator) 17 0

end Shortest

/-- How digits and an exponent are written. -/
structure DecimalLayout where
  /-- The least exponent of the leading digit that is written in full. -/
  leastPlain : Int
  /-- The least exponent of the leading digit that is no longer written in
  full. -/
  firstScientific : Int
  /-- What follows a whole number written in full. -/
  wholeSuffix : String
  /-- What stands between the digits and the exponent, for each sign. -/
  positiveMark : String
  negativeMark : String
  deriving DecidableEq, Repr

namespace DecimalLayout

/-- Drop the trailing zeros of a number of digits, raising the exponent. -/
def stripZeros : Nat → ShortDecimal → ShortDecimal
  | 0, d => d
  | fuel + 1, d =>
      if d.digits % 10 = 0 then
        stripZeros fuel ⟨d.digits / 10, d.exponent + 1⟩
      else d

/-- Write a positive decimal number. -/
def write (layout : DecimalLayout) (number : ShortDecimal) : String :=
  let d := stripZeros 20 number
  let digits := (toString d.digits).toList
  let count : Int := digits.length
  let lead := d.exponent + count - 1
  if layout.leastPlain ≤ lead ∧ lead < layout.firstScientific then
    if 0 ≤ d.exponent then
      String.ofList (digits ++ List.replicate d.exponent.toNat '0') ++
        layout.wholeSuffix
    else if 0 ≤ lead then
      let (whole, fraction) := digits.splitAt (lead.toNat + 1)
      String.ofList (whole ++ '.' :: fraction)
    else
      String.ofList
        ('0' :: '.' :: List.replicate (-lead - 1).toNat '0' ++ digits)
  else
    let significand :=
      match digits with
      | [] => []
      | [digit] => [digit]
      | first :: fraction => first :: '.' :: fraction
    String.ofList significand ++
      (if lead < 0 then layout.negativeMark else layout.positiveMark) ++
      toString lead.natAbs

end DecimalLayout

end XmlRecords
