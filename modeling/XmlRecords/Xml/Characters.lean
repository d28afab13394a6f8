/-!
# Characters of markup

The character classes of the markup grammar: white space, the characters that a
document may hold at all, and those that begin and continue a name.
-/

namespace XmlRecords.Xml

/-- Recognise the white space of markup. -/
def isSpace (c : Char) : Bool :=
  c == ' ' || c == '\t' || c == '\n' || c == '\r'

/-- Recognise the characters that a document may hold. -/
def isAllowed (c : Char) : Bool :=
  if c.toNat < 0x20 then isSpace c
  else c.toNat != 0xFFFE && c.toNat != 0xFFFF

/-- Recognise the non-ASCII characters that may begin a name. -/
def isWideNameStart (n : Nat) : Bool :=
  (0xC0 ≤ n && n ≤ 0xD6) || (0xD8 ≤ n && n ≤ 0xF6) ||
    (0xF8 ≤ n && n ≤ 0x2FF) || (0x370 ≤ n && n ≤ 0x37D) ||
    (0x37F ≤ n && n ≤ 0x1FFF) || (0x200C ≤ n && n ≤ 0x200D) ||
    (0x2070 ≤ n && n ≤ 0x218F) || (0x2C00 ≤ n && n ≤ 0x2FEF) ||
    (0x3001 ≤ n && n ≤ 0xD7FF) || (0xF900 ≤ n && n ≤ 0xFDCF) ||
    (0xFDF0 ≤ n && n ≤ 0xFFFD) || (0x10000 ≤ n && n ≤ 0xEFFFF)

/-- Recognise the characters that may begin a name. -/
def isNameStart (c : Char) : Bool :=
  c.isAlpha || c == '_' || c == ':' || isWideNameStart c.toNat

/-- Recognise the characters that may continue a name. -/
def isNameChar (c : Char) : Bool :=
  isNameStart c || c.isDigit || c == '-' || c == '.' || c.toNat == 0xB7 ||
    (0x300 ≤ c.toNat && c.toNat ≤ 0x36F) ||
    (0x203F ≤ c.toNat && c.toNat ≤ 0x2040)

/-- The character that a predefined entity stands for. -/
def predefinedEntity? (name : List Char) : Option Char :=
  if name = "lt".toList then some '<'
  else if name = "gt".toList then some '>'
  else if name = "amp".toList then some '&'
  else if name = "apos".toList then some '\x27'
  else if name = "quot".toList then some '"'
  else none

end XmlRecords.Xml
