import Mathlib.Tactic.Ring
import XmlRecords.Number.Integer

/-!
# What whole numbers are written as

A text is read as a whole number between two bounds exactly if it consists of digits,
perhaps behind a sign, and the number that it denotes lies between the bounds.
That the bounds are checked at every digit makes no difference, since each further
digit leads further away from zero.
-/

namespace XmlRecords

/-- The number that digits of a radix continue, if they all are such digits. -/
def numberFrom? (radix : Nat) : Nat → List Char → Option Nat
  | start, [] => some start
  | start, c :: rest =>
      (digitValue? radix c).bind fun digit =>
        numberFrom? radix (radix * start + digit) rest

theorem hexValue?_eq_of_isDigit {c : Char} (digit : isDigit c) :
    hexValue? c = some (c.toNat - '0'.toNat) := by
  rw [hexValue?, ← isDigit, if_pos digit]

theorem toNat_of_isDigit {c : Char} (digit : isDigit c) :
    48 ≤ c.toNat ∧ c.toNat ≤ 57 := by
  simp only [isDigit, Bool.and_eq_true, decide_eq_true_eq, Char.le_def,
    UInt32.le_iff_toNat_le] at digit
  exact digit

theorem digitValue?_ten (c : Char) :
    digitValue? 10 c = if isDigit c then some (c.toNat - '0'.toNat) else none := by
  rw [digitValue?]
  split
  · next digit =>
      have range := toNat_of_isDigit digit
      have below : c.toNat - '0'.toNat < 10 := by
        change c.toNat - 48 < 10
        omega
      rw [hexValue?_eq_of_isDigit digit, Option.filter_some, if_pos (by simpa using below)]
  · next other =>
      rw [hexValue?, ← isDigit, if_neg other]
      -- Letters stand for ten and more.
      have letter : ∀ value, (some (value + 10)).filter (· < 10) = none := by
        intro value
        rw [Option.filter_some, if_neg]
        simp
      split
      · exact letter _
      · split
        · exact letter _
        · rfl

/-- Decimal digits continue a number by their value. -/
theorem numberFrom?_ten {start number : Nat} {text : List Char} :
    numberFrom? 10 start text = some number ↔
      (∀ c ∈ text, isDigit c) ∧ number = Nat.ofDigitChars 10 text start := by
  induction text generalizing start with
  | nil =>
      exact ⟨fun read => ⟨by simp, (Option.some.inj read).symm⟩,
        fun read => congrArg some read.2.symm⟩
  | cons c rest ih =>
      rw [numberFrom?, digitValue?_ten, Nat.ofDigitChars_cons, List.forall_mem_cons]
      split
      · next digit =>
          rw [Option.bind_some, ih, and_assoc]
          exact ⟨fun read => ⟨digit, read⟩, fun read => read.2⟩
      · next other => simp [other]

theorem le_of_numberFrom? {radix start number : Nat} {text : List Char}
    (positive : 0 < radix) (read : numberFrom? radix start text = some number) :
    start ≤ number := by
  induction text generalizing start with
  | nil => simp_all [numberFrom?]
  | cons c rest ih =>
      obtain ⟨digit, _, read⟩ := Option.bind_eq_some_iff.1 read
      have further := ih read
      have scaled := Nat.le_mul_of_pos_left start positive
      omega

namespace Bounds

variable {bounds : Bounds} {radix : Nat} {sign value : Int} {text : List Char}

/-- A number lies between the bounds. -/
def Holds (bounds : Bounds) (value : Int) : Prop :=
  bounds.low ≤ value ∧ value ≤ bounds.high

/-- A number that lies between the bounds keeps all between zero and itself there. -/
theorem Holds.of_le {less more : Nat} (zero : bounds.Holds 0)
    (isSign : sign = 1 ∨ sign = -1) (holds : bounds.Holds (sign * more))
    (smaller : less ≤ more) : bounds.Holds (sign * less) := by
  simp only [Holds] at *
  rcases isSign with rfl | rfl <;> omega

theorem readDigits_eq_ok_iff {start : Nat} (zero : bounds.Holds 0) (positive : 0 < radix)
    (isSign : sign = 1 ∨ sign = -1) (begins : bounds.Holds (sign * start)) :
    bounds.readDigits radix sign (sign * start) text = .ok value ↔
      ∃ number, numberFrom? radix start text = some number ∧ value = sign * number ∧
        bounds.Holds value := by
  induction text generalizing start with
  | nil =>
      simp only [readDigits, numberFrom?, Except.ok.injEq, Option.some.injEq,
        exists_eq_left']
      exact ⟨fun same => ⟨same.symm, same ▸ begins⟩, fun same => same.1.symm⟩
  | cons c rest ih =>
      rw [readDigits, numberFrom?]
      cases digitValue? radix c with
      | none => simp
      | some digit =>
          have next : sign * start * radix + sign * digit =
              sign * (radix * start + digit : Nat) := by
            push_cast
            ring
          simp only [Option.bind_some]
          rw [next]
          by_cases holds : bounds.Holds (sign * (radix * start + digit : Nat))
          · rw [if_neg (not_lt.2 holds.1), if_neg (not_lt.2 holds.2), ih holds]
          · -- Whatever the further digits are, they lead further out.
            have outside : ¬ ∃ number,
                numberFrom? radix (radix * start + digit) rest = some number ∧
                  value = sign * number ∧ bounds.Holds value := by
              rintro ⟨number, read, rfl, inside⟩
              exact holds (zero.of_le isSign inside (le_of_numberFrom? positive read))
            refine iff_of_false ?_ outside
            split
            · simp
            · next low =>
                rw [if_pos]
                · simp
                · by_contra high
                  exact holds ⟨not_lt.1 low, not_lt.1 high⟩

end Bounds

/-- A whole number as it is written: digits, perhaps behind a sign. -/
inductive Denotes (radix : Nat) : List Char → Int → Prop where
  | digits {text : List Char} {number : Nat} (filled : text ≠ [])
      (read : numberFrom? radix 0 text = some number) : Denotes radix text number
  | plus {text : List Char} {number : Nat} (filled : text ≠ [])
      (read : numberFrom? radix 0 text = some number) :
      Denotes radix ('+' :: text) number
  | minus {text : List Char} {number : Nat} (filled : text ≠ [])
      (read : numberFrom? radix 0 text = some number) :
      Denotes radix ('-' :: text) (-number)

section Reading

variable {bounds : Bounds} {radix : Nat} {value : Int} {text : List Char}

theorem digitValue?_sign (radix : Nat) {c : Char} (isSign : c = '+' ∨ c = '-') :
    digitValue? radix c = none := by
  rcases isSign with rfl | rfl <;> rfl

theorem numberFrom?_sign (radix start : Nat) {c : Char} (isSign : c = '+' ∨ c = '-')
    (rest : List Char) : numberFrom? radix start (c :: rest) = none := by
  rw [numberFrom?, digitValue?_sign radix isSign]
  rfl

theorem denotes_plus_iff : Denotes radix ('+' :: text) value ↔
    text ≠ [] ∧ ∃ number, numberFrom? radix 0 text = some number ∧
      value = number := by
  constructor
  · intro denotes
    cases denotes with
    | digits _ read => simp [numberFrom?_sign radix 0 (.inl rfl)] at read
    | plus filled read => exact ⟨filled, _, read, rfl⟩
  · rintro ⟨filled, number, read, rfl⟩
    exact .plus filled read

theorem denotes_minus_iff : Denotes radix ('-' :: text) value ↔
    text ≠ [] ∧ ∃ number, numberFrom? radix 0 text = some number ∧
      value = -number := by
  constructor
  · intro denotes
    cases denotes with
    | digits _ read => simp [numberFrom?_sign radix 0 (.inr rfl)] at read
    | minus filled read => exact ⟨filled, _, read, rfl⟩
  · rintro ⟨filled, number, read, rfl⟩
    exact .minus filled read

/-- A text that begins with no sign. -/
def Unsigned (text : List Char) : Prop :=
  text.head? ≠ some '+' ∧ text.head? ≠ some '-'

theorem denotes_iff_of_unsigned (unsigned : Unsigned text) :
    Denotes radix text value ↔
      text ≠ [] ∧ ∃ number, numberFrom? radix 0 text = some number ∧
        value = number := by
  constructor
  · intro denotes
    cases denotes with
    | digits filled read => exact ⟨filled, _, read, rfl⟩
    | plus => exact absurd rfl unsigned.1
    | minus => exact absurd rfl unsigned.2
  · rintro ⟨filled, number, read, rfl⟩
    exact .digits filled read

namespace Bounds

theorem readDigits_zero_eq_ok_iff {sign : Int} (zero : bounds.Holds 0)
    (positive : 0 < radix) (isSign : sign = 1 ∨ sign = -1) :
    bounds.readDigits radix sign 0 text = .ok value ↔
      ∃ number, numberFrom? radix 0 text = some number ∧ value = sign * number ∧
        bounds.Holds value := by
  have begins : bounds.Holds (sign * (0 : Nat)) := by simpa using zero
  have reads : bounds.readDigits radix sign (sign * (0 : Nat)) text = .ok value ↔ _ :=
    readDigits_eq_ok_iff zero positive isSign begins
  simpa using reads

/-- Exactly the whole numbers between the bounds are read, with a minus sign only
where there are numbers below zero. -/
theorem read_eq_ok_iff (zero : bounds.Holds 0) (positive : 0 < radix) :
    bounds.read radix text = .ok value ↔
      Denotes radix text value ∧ bounds.Holds value ∧
        (text.head? = some '-' → bounds.low < 0) := by
  rw [read.eq_def]
  split
  · have unsigned : Unsigned [] := by simp [Unsigned]
    simp [denotes_iff_of_unsigned unsigned]
  · simp [denotes_plus_iff]
  · simp [denotes_minus_iff]
  · next digits filled =>
      have filled : digits ≠ [] := by simpa using filled
      rw [denotes_plus_iff, readDigits_zero_eq_ok_iff zero positive (.inl rfl)]
      simp [filled, ← and_assoc]
  · next digits filled =>
      have filled : digits ≠ [] := by simpa using filled
      rw [denotes_minus_iff]
      split
      · next below =>
          rw [readDigits_zero_eq_ok_iff zero positive (.inr rfl)]
          simp [filled, below, ← and_assoc]
      · next notBelow => simp [notBelow]
  · next filled _ _ noPlus noMinus =>
      have unsigned : Unsigned text := by
        constructor <;> intro signed
        · obtain ⟨rest, whole⟩ := List.head?_eq_some_iff.1 signed
          exact noPlus rest whole
        · obtain ⟨rest, whole⟩ := List.head?_eq_some_iff.1 signed
          exact noMinus rest whole
      have filled : text ≠ [] := filled
      rw [denotes_iff_of_unsigned unsigned,
        readDigits_zero_eq_ok_iff zero positive (.inl rfl)]
      simp [filled, unsigned.2, ← and_assoc]

end Bounds

end Reading

end XmlRecords
