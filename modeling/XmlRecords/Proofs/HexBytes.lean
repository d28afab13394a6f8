import XmlRecords.Proofs.Runs
import XmlRecords.Proofs.WholeNumbers
import XmlRecords.Value.Literal

/-!
# Bytes in hexadecimal

A text is read as bytes exactly if it is a sequence of pairs, each of two digits or of
a plus sign and a digit.  So without plus signs these are the texts of an even number
of digits, and written back the bytes are the text in lower case.  A plus sign counts
as a zero.
-/

namespace XmlRecords

namespace Hex

/-- The digits of base sixteen. -/
def digits : List Char := "0123456789abcdefABCDEF".toList

/-- Two characters that stand for a number below 256. -/
inductive SpellsByte : Char → Char → Nat → Prop where
  | digits {first second : Char} {high low : Nat} (isHigh : hexValue? first = some high)
      (isLow : hexValue? second = some low) :
      SpellsByte first second (16 * high + low)
  | plus {second : Char} {low : Nat} (isLow : hexValue? second = some low) :
      SpellsByte '+' second low

/-- A sequence of pairs, each of which stands for a byte. -/
inductive SpellsBytes : List Char → List UInt8 → Prop where
  | nil : SpellsBytes [] []
  | cons {first second : Char} {number : Nat} {text : List Char} {bytes : List UInt8}
      (pair : SpellsByte first second number) (rest : SpellsBytes text bytes) :
      SpellsBytes (first :: second :: text) (UInt8.ofNat number :: bytes)

/-- A digit in lower case, and a zero for a plus sign. -/
def plain (c : Char) : Char := if c = '+' then '0' else c.toLower

section Digits

variable {c : Char} {value : Nat}

/-- What holds of all ASCII characters holds of the digits. -/
theorem lt_of_hexValue? (isDigit : hexValue? c = some value) : c.toNat < 128 := by
  have ascii : ∀ last : Char, last.toNat < 128 → c ≤ last → c.toNat < 128 := by
    intro last small below
    rw [Char.le_def, UInt32.le_iff_toNat_le] at below
    exact Nat.lt_of_le_of_lt below small
  rw [hexValue?] at isDigit
  split at isDigit
  · next range => exact ascii '9' (by decide) (by simp_all)
  · split at isDigit
    · next range => exact ascii 'f' (by decide) (by simp_all)
    · split at isDigit
      · next range => exact ascii 'F' (by decide) (by simp_all)
      · cases isDigit

theorem of_ascii {p : Char → Prop} (small : c.toNat < 128)
    (each : ∀ n < 128, p (Char.ofNat n)) : p c := by
  have same := each c.toNat small
  rwa [Char.ofNat_toNat] at same

theorem hexDigit_of_hexValue? (isDigit : hexValue? c = some value) :
    value < 16 ∧ hexDigit value = c.toLower ∧ c ∈ digits ∧ c ≠ '+' := by
  have each : ∀ n < 128, (hexValue? (Char.ofNat n)).all fun value =>
      decide (value < 16 ∧ hexDigit value = (Char.ofNat n).toLower ∧
        Char.ofNat n ∈ digits ∧ Char.ofNat n ≠ '+') := by
    decide +kernel
  have all := of_ascii (p := fun c => (hexValue? c).all fun value =>
    decide (value < 16 ∧ hexDigit value = c.toLower ∧ c ∈ digits ∧ c ≠ '+'))
    (lt_of_hexValue? isDigit) each
  rw [isDigit] at all
  simpa using all

theorem exists_hexValue?_of_mem (member : c ∈ digits) :
    ∃ value, hexValue? c = some value := by
  have each : ∀ c ∈ digits, (hexValue? c).isSome := List.all_eq_true.1 (by decide)
  exact Option.isSome_iff_exists.1 (each c member)

/-- A digit has the same value in either case. -/
theorem hexValue?_of_toLower (lower : c.toLower = hexDigit value) (small : value < 16) :
    hexValue? c = some value := by
  have ascii : c.toNat < 128 := by
    unfold Char.toLower at lower
    split at lower
    · next upper =>
        have bound := UInt32.le_iff_toNat_le.1 upper.2
        exact Nat.lt_of_le_of_lt bound (by decide)
    · have each : ∀ n < 16, (hexDigit n).toNat < 128 := by decide
      exact lower ▸ each value small
  have each : ∀ n < 128, ∀ value < 16, (Char.ofNat n).toLower = hexDigit value →
      hexValue? (Char.ofNat n) = some value := by
    decide +kernel
  exact of_ascii (p := fun c => ∀ value < 16, c.toLower = hexDigit value →
    hexValue? c = some value) ascii each value small lower

end Digits

section Pairs

variable {first second : Char} {number : Nat} {text : List Char} {bytes : List UInt8}

theorem digitValue?_sixteen (c : Char) : digitValue? 16 c = hexValue? c := by
  rw [digitValue?]
  cases isDigit : hexValue? c with
  | none => rfl
  | some value =>
      rw [Option.filter_some, if_pos]
      simpa using (hexDigit_of_hexValue? isDigit).1

theorem numberFrom?_pair {start : Nat} :
    numberFrom? 16 start [first] = some number ↔
      ∃ low, hexValue? first = some low ∧ number = 16 * start + low := by
  simp [numberFrom?, digitValue?_sixteen, Option.bind_eq_some_iff,
    eq_comm (a := number)]

namespace SpellsByte

theorem lt (spells : SpellsByte first second number) : number < 256 := by
  cases spells with
  | digits isHigh isLow =>
      have high := (hexDigit_of_hexValue? isHigh).1
      have low := (hexDigit_of_hexValue? isLow).1
      omega
  | plus isLow =>
      have low := (hexDigit_of_hexValue? isLow).1
      omega

theorem denotes (spells : SpellsByte first second number) :
    Denotes 16 [first, second] number := by
  cases spells with
  | digits isHigh isLow =>
      refine .digits (by simp) ?_
      rw [numberFrom?, digitValue?_sixteen, isHigh]
      exact numberFrom?_pair.2 ⟨_, isLow, by simp⟩
  | plus isLow => exact .plus (by simp) (numberFrom?_pair.2 ⟨_, isLow, by simp⟩)

theorem ne_minus (spells : SpellsByte first second number) : first ≠ '-' := by
  rintro rfl
  cases spells with
  | digits isHigh => cases isHigh

end SpellsByte

/-- A pair is read exactly if it stands for a byte. -/
theorem read_pair_eq_ok_iff {value : Int} :
    (Bounds.unsigned 8).read 16 [first, second] = .ok value ↔
      ∃ number : Nat, value = number ∧ SpellsByte first second number := by
  rw [Bounds.read_eq_ok_iff ⟨by decide, by decide⟩ (by decide)]
  constructor
  · rintro ⟨denotes, _, positive⟩
    cases denotes with
    | @digits _ number _ read =>
        obtain ⟨high, isHigh, read⟩ := Option.bind_eq_some_iff.1 read
        obtain ⟨low, isLow, rfl⟩ := numberFrom?_pair.1 read
        rw [digitValue?_sixteen] at isHigh
        refine ⟨_, rfl, ?_⟩
        simpa using SpellsByte.digits isHigh isLow
    | plus _ read =>
        obtain ⟨low, isLow, rfl⟩ := numberFrom?_pair.1 read
        refine ⟨_, rfl, ?_⟩
        simpa using SpellsByte.plus isLow
    | minus => exact absurd (positive rfl) (by decide)
  · rintro ⟨number, rfl, spells⟩
    have small := spells.lt
    refine ⟨spells.denotes, ⟨by simp [Bounds.unsigned], ?_⟩, ?_⟩
    · change (number : Int) ≤ 255
      omega
    · intro minus
      exact absurd (Option.some.inj minus) spells.ne_minus

/-- Pairs are read exactly if they stand for bytes. -/
theorem readPairs_eq_ok_iff (even : text.length % 2 = 0) :
    readPairs text = .ok bytes ↔ SpellsBytes text bytes := by
  fun_induction readPairs text generalizing bytes with
  | case1 first second rest fault refused =>
      refine iff_of_false (by simp) fun spells => ?_
      cases spells with
      | cons pair _ =>
          rw [read_pair_eq_ok_iff.2 ⟨_, rfl, pair⟩] at refused
          cases refused
  | case2 first second rest value read ih =>
      obtain ⟨number, rfl, pair⟩ := read_pair_eq_ok_iff.1 read
      have evenRest : rest.length % 2 = 0 := by
        simp only [List.length_cons] at even
        omega
      rw [Outcome.map_eq_ok]
      constructor
      · rintro ⟨others, rest, rfl⟩
        exact .cons pair ((ih evenRest).1 rest)
      · intro spells
        cases spells with
        | @cons _ _ other _ others pair' rest =>
            have same : ((number : Nat) : Int) = other := by
              have read' := read_pair_eq_ok_iff.2 ⟨_, rfl, pair'⟩
              rw [read] at read'
              exact Except.ok.inj read'
            exact ⟨others, (ih evenRest).2 rest, by rw [same]; rfl⟩
  | case3 text short =>
      cases text with
      | nil =>
          constructor
          · rintro ⟨⟩
            exact .nil
          · rintro ⟨⟩
            rfl
      | cons c rest =>
          cases rest with
          | nil => simp at even
          | cons second rest => exact absurd rfl (short c second rest)

theorem SpellsByte.ascii {c : Char} (spells : SpellsByte first second number)
    (member : c = first ∨ c = second) : c.toNat < 128 := by
  cases spells with
  | digits isHigh isLow =>
      rcases member with rfl | rfl
      · exact lt_of_hexValue? isHigh
      · exact lt_of_hexValue? isLow
  | plus isLow =>
      rcases member with rfl | rfl
      · decide
      · exact lt_of_hexValue? isLow

namespace SpellsBytes

theorem even (spells : SpellsBytes text bytes) : text.length % 2 = 0 := by
  induction spells with
  | nil => rfl
  | cons _ _ ih =>
      simp only [List.length_cons]
      omega

theorem ascii (spells : SpellsBytes text bytes) : ∀ c ∈ text, c.toNat < 128 := by
  induction spells with
  | nil => simp
  | cons pair _ ih =>
      exact List.forall_mem_cons.2 ⟨pair.ascii (.inl rfl),
        List.forall_mem_cons.2 ⟨pair.ascii (.inr rfl), ih⟩⟩

end SpellsBytes

theorem decode_eq_ok_iff : decode text = .ok bytes ↔ SpellsBytes text bytes := by
  rw [decode]
  split
  · next accepted =>
      simp only [Bool.and_eq_true, beq_iff_eq] at accepted
      exact readPairs_eq_ok_iff accepted.2
  · next refused =>
      refine iff_of_false (by simp) fun spells => refused ?_
      simpa using ⟨spells.ascii, spells.even⟩

theorem plain_of_hexValue? {c : Char} {value : Nat} (isDigit : hexValue? c = some value) :
    plain c = hexDigit value := by
  obtain ⟨_, lower, _, other⟩ := hexDigit_of_hexValue? isDigit
  rw [plain, if_neg other, lower]

/-- A byte is written as the plain form of the pair that it was read from. -/
theorem SpellsByte.encodeByte_eq (spells : SpellsByte first second number) :
    encodeByte (UInt8.ofNat number) = [plain first, plain second] := by
  have number_eq : (UInt8.ofNat number).toNat = number := by
    rw [UInt8.toNat_ofNat']
    exact Nat.mod_eq_of_lt spells.lt
  rw [encodeByte, number_eq]
  cases spells with
  | @digits _ _ high low isHigh isLow =>
      have small := (hexDigit_of_hexValue? isLow).1
      have quotient : (16 * high + low) / 16 = high := by omega
      have remainder : (16 * high + low) % 16 = low := by omega
      rw [quotient, remainder, plain_of_hexValue? isHigh, plain_of_hexValue? isLow]
  | plus isLow =>
      have small := (hexDigit_of_hexValue? isLow).1
      rw [Nat.div_eq_of_lt small, Nat.mod_eq_of_lt small, plain_of_hexValue? isLow]
      rfl

/-- The bytes written back are the plain form of the text. -/
theorem SpellsBytes.toList_encode (spells : SpellsBytes text bytes) :
    (encode bytes).toList = text.map plain := by
  rw [encode, String.toList_ofList]
  induction spells with
  | nil => rfl
  | cons pair _ ih =>
      rw [List.flatMap_cons, pair.encodeByte_eq, ih]
      rfl

/-- Without plus signs, all characters are digits. -/
theorem SpellsBytes.forall_mem_digits (spells : SpellsBytes text bytes)
    (plusless : '+' ∉ text) : ∀ c ∈ text, c ∈ digits := by
  induction spells with
  | nil => simp
  | cons pair _ ih =>
      simp only [List.mem_cons, not_or] at plusless
      cases pair with
      | digits isHigh isLow =>
          exact List.forall_mem_cons.2 ⟨(hexDigit_of_hexValue? isHigh).2.2.1,
            List.forall_mem_cons.2 ⟨(hexDigit_of_hexValue? isLow).2.2.1,
              ih plusless.2.2⟩⟩
      | plus => exact absurd rfl plusless.1

/-- Every even number of digits spells bytes. -/
theorem exists_spellsBytes : ∀ {text : List Char}, text.length % 2 = 0 →
    (∀ c ∈ text, c ∈ digits) → ∃ bytes, SpellsBytes text bytes
  | [], _, _ => ⟨[], .nil⟩
  | [_], odd, _ => by simp at odd
  | first :: second :: rest, even, each => by
      obtain ⟨high, isHigh⟩ := exists_hexValue?_of_mem (each first (by simp))
      obtain ⟨low, isLow⟩ := exists_hexValue?_of_mem (each second (by simp))
      have evenRest : rest.length % 2 = 0 := by
        simp only [List.length_cons] at even
        omega
      obtain ⟨bytes, spells⟩ :=
        exists_spellsBytes evenRest fun c member => each c (by simp [member])
      exact ⟨_, .cons (.digits isHigh isLow) spells⟩

/-- In either case of letters, what bytes are written as are digits that spell them. -/
theorem spellsBytes_of_map_toLower
    (written : text.map Char.toLower = bytes.flatMap encodeByte) :
    SpellsBytes text bytes ∧ ∀ c ∈ text, c ∈ digits := by
  induction bytes generalizing text with
  | nil =>
      rw [List.map_eq_nil_iff.1 written]
      exact ⟨.nil, by simp⟩
  | cons byte bytes ih =>
      rw [List.flatMap_cons, encodeByte] at written
      obtain ⟨first, others, rfl, isHigh, written⟩ := List.map_eq_cons_iff.1 written
      obtain ⟨second, rest, rfl, isLow, written⟩ := List.map_eq_cons_iff.1 written
      have small := byte.toNat_lt
      have high := hexValue?_of_toLower isHigh (Nat.div_lt_of_lt_mul small)
      have low := hexValue?_of_toLower isLow (Nat.mod_lt _ (by decide))
      have pair := SpellsByte.digits high low
      rw [Nat.div_add_mod] at pair
      obtain ⟨spells, each⟩ := ih written
      refine ⟨by simpa using SpellsBytes.cons pair spells, ?_⟩
      exact List.forall_mem_cons.2 ⟨(hexDigit_of_hexValue? high).2.2.1,
        List.forall_mem_cons.2 ⟨(hexDigit_of_hexValue? low).2.2.1, each⟩⟩

end Pairs

end Hex

open Hex (SpellsBytes)

theorem isBlank_of_mem_digits {c : Char} (member : c ∈ Hex.digits) :
    isBlank c = false := by
  have each : Hex.digits.all (!isBlank ·) := by decide
  simpa using List.all_eq_true.1 each c member

/-- Text that consists of digits is not trimmed. -/
theorem Hex.trimChars_eq_self {text : List Char} (each : ∀ c ∈ text, c ∈ Hex.digits) :
    Text.trimChars text = text :=
  Text.trimChars_eq_self
    (fun _ first => isBlank_of_mem_digits (each _ (List.mem_of_mem_head? first)))
    (fun _ last => isBlank_of_mem_digits (each _ (List.mem_of_mem_getLast? last)))

namespace Value

variable {zone : Zone} {text : String} {value : Value}

theorem readHex_eq_ok_iff {text : List Char} {bytes : List UInt8} :
    readHex text = .ok bytes ↔ SpellsBytes text bytes := by
  rw [← Hex.decode_eq_ok_iff, readHex]
  cases Hex.decode text <;> simp [Except.mapError]

theorem readPrimitive_hex_eq_ok_iff :
    readPrimitive zone .bytes (some .hex) text = .ok value ↔
      ∃ bytes, SpellsBytes (Text.trimChars text.toList) bytes ∧ value = .bytes bytes := by
  simp only [readPrimitive, if_pos, Outcome.map_eq_ok, readHex_eq_ok_iff,
    eq_comm (a := value)]

/-- A text is read as bytes exactly if it is a sequence of pairs of digits, where a plus
sign may take the place of the first digit of a pair.  Without plus signs these are
the texts of an even number of digits.  The bytes are written back as the text
in lower case, with zeros for plus signs, and what bytes are written as is
read back as those bytes in either case of letters. -/
theorem readPrimitive_hex (zone : Zone) (text : String) :
    (∀ value, readPrimitive zone .bytes (some .hex) text = .ok value ↔
      ∃ bytes, SpellsBytes (Text.trimChars text.toList) bytes ∧ value = .bytes bytes) ∧
    ('+' ∉ Text.trimChars text.toList →
      ((∃ value, readPrimitive zone .bytes (some .hex) text = .ok value) ↔
        (Text.trimChars text.toList).length % 2 = 0 ∧
          ∀ c ∈ Text.trimChars text.toList, c ∈ Hex.digits)) ∧
    (∀ bytes, readPrimitive zone .bytes (some .hex) text = .ok (.bytes bytes) →
      (Hex.encode bytes).toList = (Text.trimChars text.toList).map Hex.plain) ∧
    (∀ bytes, text.toList.map Char.toLower = (Hex.encode bytes).toList →
      readPrimitive zone .bytes (some .hex) text = .ok (.bytes bytes)) := by
  refine ⟨fun _ => readPrimitive_hex_eq_ok_iff, ?_, ?_, ?_⟩
  · intro plusless
    constructor
    · rintro ⟨value, read⟩
      obtain ⟨bytes, spells, _⟩ := readPrimitive_hex_eq_ok_iff.1 read
      exact ⟨spells.even, spells.forall_mem_digits plusless⟩
    · rintro ⟨even, each⟩
      obtain ⟨bytes, spells⟩ := Hex.exists_spellsBytes even each
      exact ⟨_, readPrimitive_hex_eq_ok_iff.2 ⟨bytes, spells, rfl⟩⟩
  · intro bytes read
    obtain ⟨_, spells, same⟩ := readPrimitive_hex_eq_ok_iff.1 read
    cases same
    exact spells.toList_encode
  · intro bytes written
    rw [Hex.encode, String.toList_ofList] at written
    obtain ⟨spells, each⟩ := Hex.spellsBytes_of_map_toLower written
    refine readPrimitive_hex_eq_ok_iff.2 ⟨bytes, ?_, rfl⟩
    rwa [Hex.trimChars_eq_self each]

/-- A plus sign is read as if it were a digit. -/
theorem hex_reads_plus :
    readPrimitive .utc .bytes (some .hex) "+f" = .ok (.bytes [0x0f]) ∧
      ¬ ∀ c ∈ Text.trimChars "+f".toList, c ∈ Hex.digits :=
  ⟨rfl, fun each => absurd (each '+' (by decide)) (by decide)⟩

end Value

end XmlRecords
