/-!
# Base 64

Four symbols of the standard alphabet stand for three bytes.  The text has to be
padded to whole groups of four and the unused bits of its last symbol have to be
zero.

All groups but the last are read first.  They hold no padding; the last group,
which is incomplete if the length is no multiple of four, is where padding may
stand.  A fault names the offset of the symbol it is about.
-/

namespace XmlRecords.Base64

/-- Why a text is not in base 64. -/
inductive Fault where
  | symbol (byte : UInt8) (offset : Nat)
  | length (symbols : Nat)
  | padding
  | lastSymbol (byte : UInt8) (offset : Nat)
  deriving DecidableEq, Repr

/-- The wording of a fault. -/
def Fault.message : Fault → String
  | .symbol byte offset =>
      "Invalid symbol " ++ toString byte.toNat ++ ", offset " ++
        toString offset ++ "."
  | .length symbols => "Invalid input length: " ++ toString symbols
  | .padding => "Invalid padding"
  | .lastSymbol byte offset =>
      "Invalid last symbol " ++ toString byte.toNat ++ ", offset " ++
        toString offset ++ "."

/-- The sign that fills up the last group. -/
def pad : UInt8 := 61

/-- The six bits that a symbol stands for. -/
def symbolValue? (byte : UInt8) : Option Nat :=
  let b := byte.toNat
  if 65 ≤ b && b ≤ 90 then some (b - 65)
  else if 97 ≤ b && b ≤ 122 then some (b - 71)
  else if 48 ≤ b && b ≤ 57 then some (b + 4)
  else if b == 43 then some 62
  else if b == 47 then some 63
  else none

/-- Read a symbol at an offset. -/
def readSymbol (byte : UInt8) (offset : Nat) : Except Fault Nat :=
  match symbolValue? byte with
  | some value => .ok value
  | none => .error (.symbol byte offset)

/-- The last group as far as it has been read: the values of its symbols, the
last of the symbols, and the padding counted after them. -/
structure LastGroup where
  values : List Nat
  last : UInt8
  padding : Nat
  deriving DecidableEq, Repr

/-- Read the last group from an offset on.  Padding stands behind at least two
symbols and in front of none. -/
def readLastGroup (start : Nat) : LastGroup → List UInt8 → Except Fault LastGroup
  | group, [] => .ok group
  | group, byte :: rest =>
      let index := group.values.length + group.padding
      if byte = pad then
        if index < 2 then .error (.symbol byte (start + index))
        else readLastGroup start { group with padding := group.padding + 1 } rest
      else if 0 < group.padding then
        .error (.symbol pad (start + group.values.length))
      else
        match readSymbol byte (start + index) with
        | .error fault => .error fault
        | .ok value =>
            readLastGroup start
              { group with values := group.values ++ [value], last := byte } rest

/-- The bytes of the last group. -/
def finish (start : Nat) (group : LastGroup) : Except Fault (List UInt8) :=
  let count := group.values.length
  if start + count ≠ 0 ∧ count < 2 then .error (.length (start + count))
  else if (group.padding + count) % 4 ≠ 0 then .error .padding
  else
    let number := group.values.foldl (fun sum value => sum * 64 + value) 0
    let unused := count * 6 % 8
    if number % Nat.pow 2 unused ≠ 0 then
      .error (.lastSymbol group.last (start + count - 1))
    else
      let size := count * 6 / 8
      let number := number / Nat.pow 2 unused
      .ok ((List.range size).map fun i =>
        UInt8.ofNat (number / Nat.pow 256 (size - 1 - i) % 256))

/-- Read the groups of a text from an offset on. -/
def readGroups (start : Nat) : List UInt8 → Except Fault (List UInt8)
  | a :: b :: c :: d :: e :: rest => do
      let a ← readSymbol a start
      let b ← readSymbol b (start + 1)
      let c ← readSymbol c (start + 2)
      let d ← readSymbol d (start + 3)
      let number := ((a * 64 + b) * 64 + c) * 64 + d
      let later ← readGroups (start + 4) (e :: rest)
      return UInt8.ofNat (number / 65536) :: UInt8.ofNat (number / 256 % 256) ::
        UInt8.ofNat (number % 256) :: later
  | last => readLastGroup start ⟨[], 0, 0⟩ last >>= finish start

/-- Read a text.  Of a text with one symbol too many, a wrong last symbol is the
first fault to be reported. -/
def decode (text : List UInt8) : Except Fault (List UInt8) :=
  match text.length % 4, text.getLast? with
  | 1, some last =>
      if last ≠ pad ∧ (symbolValue? last).isNone then
        .error (.symbol last (text.length - 1))
      else readGroups 0 text
  | _, _ => readGroups 0 text

end XmlRecords.Base64
