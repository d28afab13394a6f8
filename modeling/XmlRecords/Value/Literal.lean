import XmlRecords.Text.Utf8
import XmlRecords.Time.Timestamp
import XmlRecords.Value.Basic

/-!
# Reading primitive values

The text of a primitive is trimmed before it is read, except for a string, which
is taken as it stands.
-/

namespace XmlRecords.Value

/-- Read a whole number that fits a width. -/
def readInteger (kind : LiteralKind) (width : Nat) (text : List Char) :
    Except Error Int :=
  ((Bounds.signed width).read 10 text).mapError fun fault =>
    .literal kind (String.ofList text) (.integer fault)

/-- Read a number of a binary format. -/
def readBinary (kind : LiteralKind) (format : BinaryFormat) (text : List Char) :
    Except Error (Binary format) :=
  (Binary.read text).mapError fun fault =>
    .literal kind (String.ofList text) (.decimal fault)

/-- Read bytes in hexadecimal. -/
def readHex (text : List Char) : Except Error (List UInt8) :=
  (Hex.decode text).mapError fun fault =>
    .literal .bytes (String.ofList text) (.hex fault)

/-- Read bytes in base 64, among which there may be white space. -/
def readBase64 (text : List Char) : Except Error (List UInt8) :=
  let symbols := String.ofList (text.filter (!isBlank ·))
  (Base64.decode (Utf8.encode symbols)).mapError fun fault =>
    .literal .bytes (String.ofList text) (.base64 fault)

/-- Read a primitive value of a kind. -/
def readPrimitive (zone : Zone) (kind : Primitive) (logical : Option Logical)
    (text : String) : Except Error Value :=
  let trimmed := Text.trimChars text.toList
  match kind with
  | .boolean =>
      .ok (.boolean (trimmed == "true".toList || trimmed == ['1']))
  | .int => (readInteger .int 32 trimmed).map .int
  | .long =>
      if logical = some .timestampMillis then
        (Timestamp.read zone text).map .long
      else (readInteger .long 64 trimmed).map .long
  | .float => (readBinary .float .single trimmed).map .float
  | .double => (readBinary .double .double trimmed).map .double
  | .bytes =>
      if logical = some .hex then (readHex trimmed).map .bytes
      else (readBase64 trimmed).map .bytes
  | .string => .ok (.string text)

end XmlRecords.Value
