import XmlRecords.Number.Integer

/-!
# Hexadecimal bytes

A text of pairs, each of which is read as a whole number below 256 in base
sixteen; and the plain digits in which bytes are written.
-/

namespace XmlRecords.Hex

/-- Why a text is not a sequence of hexadecimal bytes. -/
inductive Fault where
  | oddLength
  | pair (fault : IntegerFault)
  deriving DecidableEq, Repr

/-- The wording of a fault. -/
def Fault.message : Fault → String
  | .oddLength => "hexBinary needs an even number of hex digits"
  | .pair fault => fault.message

/-- Read one byte per pair of characters.  A pair is a whole number in base
sixteen, so a plus sign may take the place of its first digit. -/
def readPairs : List Char → Except Fault (List UInt8)
  | first :: second :: rest =>
      match (Bounds.unsigned 8).read 16 [first, second] with
      | .error fault => .error (.pair fault)
      | .ok value => (readPairs rest).map (UInt8.ofNat value.toNat :: ·)
  | _ => .ok []

/-- Read a text of an even number of ASCII characters. -/
def decode (text : List Char) : Except Fault (List UInt8) :=
  if text.all (·.toNat < 0x80) && text.length % 2 == 0 then readPairs text
  else .error .oddLength

/-- Write a byte as two digits. -/
def encodeByte (byte : UInt8) : List Char :=
  [hexDigit (byte.toNat / 16), hexDigit (byte.toNat % 16)]

/-- Write two digits per byte. -/
def encode (bytes : List UInt8) : String :=
  String.ofList (bytes.flatMap encodeByte)

end XmlRecords.Hex
