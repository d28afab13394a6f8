/-!
# Binary floating-point numbers

A number of a binary format is a sign and a code: the exponent and the fraction
packed into one natural number, so that the codes of the finite numbers count
them in increasing order and the code after the last of them is infinity.  One
code stands for every number that is not a number.

Rounding a quotient of natural numbers to such a format is done in exact
arithmetic; a tie goes to the even neighbour.
-/

namespace XmlRecords

/-- A binary format: the digits of a significand, the exponent of its last digit
at its least, and the width of the exponent field. -/
structure BinaryFormat where
  precision : Nat
  leastExponent : Int
  exponentBits : Nat
  deriving DecidableEq, Repr

namespace BinaryFormat

/-- The format of 32 bits. -/
def single : BinaryFormat := ⟨24, -149, 8⟩

/-- The format of 64 bits. -/
def double : BinaryFormat := ⟨53, -1074, 11⟩

/-- The code of infinity. -/
def infinityCode (format : BinaryFormat) : Nat :=
  (Nat.pow 2 format.exponentBits - 1) * Nat.pow 2 (format.precision - 1)

/-- The one code of what is not a number. -/
def nanCode (format : BinaryFormat) : Nat :=
  format.infinityCode + Nat.pow 2 (format.precision - 2)

/-- The significand and exponent of a finite code. -/
def unpack (format : BinaryFormat) (code : Nat) : Nat × Int :=
  let unit := Nat.pow 2 (format.precision - 1)
  let field := code / unit
  let fraction := code % unit
  if field = 0 then (fraction, format.leastExponent)
  else (unit + fraction, format.leastExponent + (field - 1 : Nat))

/-- Divide and round to the nearest whole number, a tie to the even one. -/
def roundQuotient (numerator denominator : Nat) : Nat :=
  let quotient := numerator / denominator
  let rest := numerator % denominator
  if 2 * rest < denominator then quotient
  else if denominator < 2 * rest then quotient + 1
  else quotient + quotient % 2

/-- Multiply a quotient by a power of two, as numerator and denominator. -/
def scale (numerator denominator : Nat) (exponent : Int) : Nat × Nat :=
  if 0 ≤ exponent then (numerator * Nat.pow 2 exponent.toNat, denominator)
  else (numerator, denominator * Nat.pow 2 (-exponent).toNat)

/-- The code of the number of a format nearest to a quotient.  The exponent is
the least one under which the significand has no digit too many; a significand
that rounds up to the next power of two carries into the exponent field. -/
def roundCode (format : BinaryFormat) (numerator denominator : Nat) : Nat :=
  if numerator = 0 then 0
  else
    let magnitude : Int := (numerator.log2 : Int) - denominator.log2
    let guess := max format.leastExponent (magnitude - format.precision)
    let (top, bottom) := scale numerator denominator (-guess)
    let exponent :=
      if Nat.pow 2 format.precision ≤ top / bottom then guess + 1 else guess
    let (top, bottom) := scale numerator denominator (-exponent)
    let significand := roundQuotient top bottom
    min format.infinityCode
      ((exponent - format.leastExponent).toNat *
        Nat.pow 2 (format.precision - 1) + significand)

end BinaryFormat

/-- A number of a binary format. -/
structure Binary (format : BinaryFormat) where
  negative : Bool
  code : Nat
  deriving DecidableEq, Repr

namespace Binary

variable {format : BinaryFormat}

/-- What is not a number. -/
def nan : Binary format := ⟨false, format.nanCode⟩

/-- Infinity of a sign. -/
def infinity (negative : Bool) : Binary format :=
  ⟨negative, format.infinityCode⟩

/-- Recognise what is not a number. -/
def isNan (x : Binary format) : Bool := format.infinityCode < x.code

/-- Recognise the numbers other than the infinities. -/
def isFinite (x : Binary format) : Bool := x.code < format.infinityCode

/-- The whole bit pattern, the sign above the code. -/
def bits (x : Binary format) : Nat :=
  (if x.negative then
    Nat.pow 2 (format.exponentBits + (format.precision - 1)) else 0) + x.code

/-- Round a signed quotient to the nearest number of the format. -/
def ofQuotient (negative : Bool) (numerator denominator : Nat) :
    Binary format :=
  ⟨negative, format.roundCode numerator denominator⟩

/-- Convert to another format; between formats of growing width nothing is
lost. -/
def convert (target : BinaryFormat) (x : Binary format) : Binary target :=
  if x.isNan then nan
  else if x.isFinite then
    let (significand, exponent) := format.unpack x.code
    let (top, bottom) := BinaryFormat.scale significand 1 exponent
    ofQuotient x.negative top bottom
  else infinity x.negative

end Binary

/-- A number of 32 bits. -/
abbrev Binary32 := Binary .single

/-- A number of 64 bits. -/
abbrev Binary64 := Binary .double

end XmlRecords
