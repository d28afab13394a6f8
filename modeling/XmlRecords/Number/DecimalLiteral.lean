import XmlRecords.Number.Binary
import XmlRecords.Text.Digit

/-!
# Decimal literals

A decimal literal is an optional sign before digits with at most one point
among, before or after them, and then an optional exponent; or a sign before
one of the words for infinity or for what is not a number, in any letter case.
The value is the number of the format nearest to the literal.
-/

namespace XmlRecords

/-- Why a text is not a decimal literal. -/
inductive DecimalFault where
  | empty
  | invalid
  deriving DecidableEq, Repr

/-- The wording of a decimal fault. -/
def DecimalFault.message : DecimalFault → String
  | .empty => "cannot parse float from empty string"
  | .invalid => "invalid float literal"

/-- A decimal number: digits read as a whole number, times a power of ten. -/
structure Decimal where
  digits : Nat
  exponent : Int
  deriving DecidableEq, Repr

namespace Decimal

/-- Extend a whole number by decimal digits. -/
def appendDigits (value : Nat) (digits : List Char) : Nat :=
  digits.foldl (fun sum c => sum * 10 + (c.toNat - '0'.toNat)) value

/-- Split off the digits at the front of a text. -/
def spanDigits (text : List Char) : List Char × List Char :=
  (text.takeWhile isDigit, text.dropWhile isDigit)

/-- Read a signed exponent with at least one digit, and nothing after it. -/
def readExponent? (text : List Char) : Option Int :=
  let (negative, digits) : Bool × List Char :=
    match text with
    | '-' :: rest => (true, rest)
    | '+' :: rest => (false, rest)
    | rest => (false, rest)
  match spanDigits digits with
  | ([], _) | (_, _ :: _) => none
  | (digits, []) =>
      let size : Int := appendDigits 0 digits
      some (if negative then -size else size)

/-- Read an unsigned decimal number that fills the whole text. -/
def read? (text : List Char) : Option Decimal :=
  let (whole, rest) := spanDigits text
  let (fraction, rest) :=
    match rest with
    | '.' :: tail => spanDigits tail
    | _ => ([], rest)
  if whole.isEmpty && fraction.isEmpty then none
  else
    let digits := appendDigits (appendDigits 0 whole) fraction
    match rest with
    | [] => some ⟨digits, -fraction.length⟩
    | e :: exponent =>
        if e = 'e' ∨ e = 'E' then
          (readExponent? exponent).map fun shift =>
            ⟨digits, shift - fraction.length⟩
        else none

/-- The nearest number of a format.  A literal far beyond the greatest or below
the least number of every format is settled by its size alone, before any power
of ten is computed. -/
def toBinary {format : BinaryFormat} (negative : Bool) (d : Decimal) :
    Binary format :=
  if d.digits = 0 then ⟨negative, 0⟩
  else
    let size : Int := d.digits.log2 / 4 + d.exponent
    if 400 < size then .infinity negative
    else if (d.digits.log2 : Int) + d.exponent < -400 then ⟨negative, 0⟩
    else if 0 ≤ d.exponent then
      .ofQuotient negative (d.digits * Nat.pow 10 d.exponent.toNat) 1
    else .ofQuotient negative d.digits (Nat.pow 10 (-d.exponent).toNat)

end Decimal

namespace Binary

/-- Lower the case of ASCII letters. -/
private def lowerWord (text : List Char) : String :=
  String.ofList (text.map Char.toLower)

/-- Read a decimal literal that fills the whole text. -/
def read {format : BinaryFormat} (text : List Char) :
    Except DecimalFault (Binary format) :=
  if text.isEmpty then .error .empty
  else
    let (negative, body) : Bool × List Char :=
      match text with
      | '-' :: rest => (true, rest)
      | '+' :: rest => (false, rest)
      | rest => (false, rest)
    match Decimal.read? body with
    | some decimal => .ok (decimal.toBinary negative)
    | none =>
        if lowerWord body = "inf" ∨ lowerWord body = "infinity" then
          .ok (.infinity negative)
        else if lowerWord body = "nan" then .ok .nan
        else .error .invalid

end Binary

end XmlRecords
