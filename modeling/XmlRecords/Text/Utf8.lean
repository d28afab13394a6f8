/-!
# Reading UTF-8

Bytes are read one at a time by a small machine that remembers how many
continuation bytes a character still owes and which values the next one may
take.  The machine yields a character for every well-formed sequence and a gap
for every maximal ill-formed one.  Strict reading refuses gaps, lenient reading
fills each with the replacement character.
-/

namespace XmlRecords.Utf8

/-- A character whose first bytes have been read: the bytes still owed, the
bounds of the next one, and the value so far. -/
structure Unfinished where
  owed : Nat
  low : Nat
  high : Nat
  code : Nat
  deriving DecidableEq

/-- What a byte at the start of a character means. -/
inductive Lead where
  | char (c : Char)
  | unfinished (state : Unfinished)
  | illFormed

/-- Classify the first byte of a character. -/
def lead (byte : UInt8) : Lead :=
  let b := byte.toNat
  if b < 0x80 then .char (Char.ofNat b)
  else if 0xC2 ≤ b && b ≤ 0xDF then .unfinished ⟨1, 0x80, 0xBF, b - 0xC0⟩
  else if b == 0xE0 then .unfinished ⟨2, 0xA0, 0xBF, b - 0xE0⟩
  else if b == 0xED then .unfinished ⟨2, 0x80, 0x9F, b - 0xE0⟩
  else if 0xE1 ≤ b && b ≤ 0xEF then .unfinished ⟨2, 0x80, 0xBF, b - 0xE0⟩
  else if b == 0xF0 then .unfinished ⟨3, 0x90, 0xBF, b - 0xF0⟩
  else if 0xF1 ≤ b && b ≤ 0xF3 then .unfinished ⟨3, 0x80, 0xBF, b - 0xF0⟩
  else if b == 0xF4 then .unfinished ⟨3, 0x80, 0x8F, b - 0xF0⟩
  else .illFormed

/-- Read bytes from between characters or from inside one.  A gap `none` stands
for a maximal run of bytes that is not the start of any character. -/
def scan : Option Unfinished → List UInt8 → List (Option Char)
  | none, [] => []
  | some _, [] => [none]
  | none, byte :: rest =>
      match lead byte with
      | .char c => some c :: scan none rest
      | .unfinished state => scan (some state) rest
      | .illFormed => none :: scan none rest
  | some state, byte :: rest =>
      let b := byte.toNat
      if state.low ≤ b && b ≤ state.high then
        let code := state.code * 64 + (b - 0x80)
        if state.owed ≤ 1 then some (Char.ofNat code) :: scan none rest
        else scan (some ⟨state.owed - 1, 0x80, 0xBF, code⟩) rest
      else
        none ::
          match lead byte with
          | .char c => some c :: scan none rest
          | .unfinished next => scan (some next) rest
          | .illFormed => none :: scan none rest

/-- Read well-formed bytes; any gap makes the whole text unreadable. -/
def decode? (bytes : List UInt8) : Option String :=
  ((scan none bytes).mapM id).map String.ofList

/-- Read bytes with the replacement character in every gap. -/
def decodeLossy (bytes : List UInt8) : String :=
  String.ofList ((scan none bytes).map fun c => c.getD '\uFFFD')

/-- The characters in front of the first gap. -/
def decodeUntilGap (bytes : List UInt8) : List Char :=
  ((scan none bytes).takeWhile Option.isSome).filterMap id

/-- The bytes of a text. -/
def encode (text : String) : List UInt8 :=
  text.toUTF8.data.toList

end XmlRecords.Utf8
