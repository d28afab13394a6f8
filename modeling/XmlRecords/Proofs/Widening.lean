import Mathlib.Algebra.Ring.Nat
import Mathlib.Data.Nat.Log
import XmlRecords.Number.Binary

/-!
# Widening loses nothing

A number that a format has room for is rounded to itself: its code is made of its
significand, scaled until it fills the digits of the format or until its exponent is the
least one.  So a number of 32 bits becomes a number of 64 bits that is rounded back to it.
-/

namespace XmlRecords

namespace BinaryFormat

variable {format : BinaryFormat} {significand up down : Nat}

theorem log2_mul_two_pow (positive : significand ≠ 0) (exponent : Nat) :
    (significand * 2 ^ exponent).log2 = significand.log2 + exponent := by
  have nonzero : significand * 2 ^ exponent ≠ 0 :=
    Nat.mul_ne_zero positive (Nat.two_pow_pos exponent).ne'
  rw [Nat.log2_eq_iff nonzero, Nat.pow_add, Nat.add_right_comm, Nat.pow_add]
  exact ⟨Nat.mul_le_mul_right _ (Nat.log2_self_le positive),
    Nat.mul_lt_mul_of_pos_right Nat.lt_log2_self (Nat.two_pow_pos exponent)⟩

theorem roundQuotient_mul (quotient : Nat) {denominator : Nat} (positive : 0 < denominator) :
    roundQuotient (quotient * denominator) denominator = quotient := by
  rw [roundQuotient, Nat.mul_mod_left, Nat.mul_div_cancel _ positive]
  simp [positive]

/-- A scaled quotient is whole if the powers of two outweigh each other. -/
theorem exists_scale (significand : Nat) {up down whole : Nat} (exponent : Int)
    (balance : (up : Int) - down + exponent = whole) :
    ∃ denominator, 0 < denominator ∧
      scale (significand * 2 ^ up) (2 ^ down) exponent =
        (significand * 2 ^ whole * denominator, denominator) := by
  rw [scale]
  split
  · refine ⟨2 ^ down, Nat.two_pow_pos down, ?_⟩
    have total : up + exponent.toNat = whole + down := by omega
    rw [Nat.pow_eq, Nat.mul_assoc, Nat.mul_assoc, ← Nat.pow_add, ← Nat.pow_add, total]
  · refine ⟨2 ^ down * 2 ^ (-exponent).toNat,
      Nat.mul_pos (Nat.two_pow_pos _) (Nat.two_pow_pos _), ?_⟩
    have total : up = whole + (down + (-exponent).toNat) := by omega
    rw [Nat.pow_eq, ← Nat.pow_add, Nat.mul_assoc, ← Nat.pow_add, ← total]

/-- The exponent of the last digit that a format keeps of a number. -/
def lastExponent (format : BinaryFormat) (significand : Nat) (exponent : Int) : Int :=
  max format.leastExponent (significand.log2 + exponent - (format.precision - 1))

/-- The first guess at the exponent is too low by one if it leaves a digit too many. -/
theorem lastExponent_eq_guess {exponent : Int} {whole : Nat} (positive : significand ≠ 0)
    (scaled : exponent - max format.leastExponent
      (significand.log2 + exponent - format.precision) = whole) :
    (if 2 ^ format.precision ≤ significand * 2 ^ whole then
        max format.leastExponent (significand.log2 + exponent - format.precision) + 1
      else max format.leastExponent (significand.log2 + exponent - format.precision)) =
      format.lastExponent significand exponent := by
  have nonzero : significand * 2 ^ whole ≠ 0 :=
    Nat.mul_ne_zero positive (Nat.two_pow_pos whole).ne'
  simp only [← Nat.le_log2 nonzero, log2_mul_two_pow positive, lastExponent]
  split <;> omega

/-- The code of a number that a format has room for. -/
def pack (format : BinaryFormat) (significand : Nat) (exponent : Int) : Nat :=
  (format.lastExponent significand exponent - format.leastExponent).toNat *
      2 ^ (format.precision - 1) +
    significand * 2 ^ (exponent - format.lastExponent significand exponent).toNat

/-- A number whose last digit is not too low is rounded to itself. -/
theorem roundCode_exact (positive : significand ≠ 0) {exponent : Int}
    (balance : (up : Int) - down = exponent)
    (fits : format.lastExponent significand exponent ≤ exponent) :
    format.roundCode (significand * 2 ^ up) (2 ^ down) =
      min format.infinityCode (format.pack significand exponent) := by
  have nonzero : significand * 2 ^ up ≠ 0 :=
    Nat.mul_ne_zero positive (Nat.two_pow_pos up).ne'
  have magnitude : ((significand.log2 + up : Nat) : Int) - (down : Nat) =
      significand.log2 + exponent := by omega
  obtain ⟨whole, scaled⟩ : ∃ whole : Nat, exponent - max format.leastExponent
      (significand.log2 + exponent - format.precision) = whole := by
    refine ⟨_, (Int.toNat_of_nonneg ?_).symm⟩
    rw [lastExponent] at fits
    omega
  have rest : exponent - format.lastExponent significand exponent =
      ((exponent - format.lastExponent significand exponent).toNat : Int) := by omega
  obtain ⟨first, firstPositive, guessed⟩ := exists_scale significand
    (-max format.leastExponent (significand.log2 + exponent - format.precision))
    (by rw [balance]; exact scaled)
  obtain ⟨last, lastPositive, exact⟩ := exists_scale significand
    (-format.lastExponent significand exponent) (by rw [balance]; exact rest)
  rw [roundCode, if_neg nonzero, log2_mul_two_pow positive, Nat.log2_two_pow]
  simp only [magnitude, guessed, Nat.mul_div_cancel _ firstPositive, Nat.pow_eq,
    lastExponent_eq_guess positive scaled, exact, roundQuotient_mul _ lastPositive, pack]

theorem exists_scale_one (significand whole : Nat) (exponent : Int) :
    ∃ up down : Nat, scale (significand * 2 ^ whole) 1 exponent =
      (significand * 2 ^ up, 2 ^ down) ∧ (up : Int) - down = exponent + whole := by
  rw [scale]
  split
  · refine ⟨whole + exponent.toNat, 0, ?_, by omega⟩
    rw [Nat.pow_eq, Nat.mul_assoc, ← Nat.pow_add, Nat.pow_zero]
  · refine ⟨whole, (-exponent).toNat, ?_, by omega⟩
    rw [Nat.pow_eq, Nat.one_mul]

/-- The parts of a code are those of a significand with all its digits and the number of
steps from the least exponent. -/
theorem unpack_add (place : Nat) (full : 2 ^ (format.precision - 1) ≤ significand)
    (fits : significand < 2 * 2 ^ (format.precision - 1)) :
    format.unpack (place * 2 ^ (format.precision - 1) + significand) =
      (significand, format.leastExponent + place) := by
  have positive := Nat.two_pow_pos (format.precision - 1)
  obtain ⟨fraction, rfl⟩ := Nat.exists_eq_add_of_le full
  have low : fraction < 2 ^ (format.precision - 1) := by omega
  have code : place * 2 ^ (format.precision - 1) +
      (2 ^ (format.precision - 1) + fraction) =
        2 ^ (format.precision - 1) * (place + 1) + fraction := by
    rw [Nat.mul_comm, Nat.mul_succ, Nat.add_assoc]
  have field : (2 ^ (format.precision - 1) * (place + 1) + fraction) /
      2 ^ (format.precision - 1) = place + 1 := by
    rw [Nat.mul_add_div positive, Nat.div_eq_of_lt low, Nat.add_zero]
  rw [unpack, code]
  simp [field, Nat.mod_eq_of_lt low]

/-- A number that is unpacked is packed again as it was. -/
theorem pack_unpack (digits : 0 < format.precision) {code : Nat} {exponent : Int}
    (unpacked : format.unpack code = (significand, exponent)) (positive : significand ≠ 0) :
    format.lastExponent significand exponent = exponent ∧
      format.pack significand exponent = code := by
  have whole := Nat.div_add_mod code (2 ^ (format.precision - 1))
  have low := Nat.mod_lt code (Nat.two_pow_pos (format.precision - 1))
  rw [unpack] at unpacked
  simp only [Nat.pow_eq] at unpacked
  split at unpacked
  · next small =>
      obtain ⟨rfl, rfl⟩ := Prod.mk.inj unpacked
      have few := (Nat.log2_lt positive).2 low
      have last : format.lastExponent (code % 2 ^ (format.precision - 1))
          format.leastExponent = format.leastExponent := by
        rw [lastExponent]
        omega
      rw [small] at whole
      rw [pack, last, Int.sub_self]
      exact ⟨rfl, by simpa using whole⟩
  · next large =>
      obtain ⟨rfl, rfl⟩ := Prod.mk.inj unpacked
      have bound : 2 ^ (format.precision - 1) + code % 2 ^ (format.precision - 1) <
          2 ^ (format.precision - 1 + 1) := by
        rw [Nat.pow_succ]
        omega
      have all : (2 ^ (format.precision - 1) + code % 2 ^ (format.precision - 1)).log2 =
          format.precision - 1 :=
        (Nat.log2_eq_iff positive).2 ⟨Nat.le_add_right _ _, bound⟩
      have last : format.lastExponent
          (2 ^ (format.precision - 1) + code % 2 ^ (format.precision - 1))
          (format.leastExponent + (code / 2 ^ (format.precision - 1) - 1 : Nat)) =
            format.leastExponent + (code / 2 ^ (format.precision - 1) - 1 : Nat) := by
        rw [lastExponent, all]
        omega
      obtain ⟨place, field⟩ := Nat.exists_eq_succ_of_ne_zero large
      have steps : ∀ least : Int, (least + (place : Nat) - least).toNat = place := by
        intro least
        omega
      rw [pack, last, Int.sub_self, field, Nat.succ_sub_one, steps]
      refine ⟨rfl, ?_⟩
      rw [field, Nat.mul_succ] at whole
      simp only [Int.toNat_zero, Nat.pow_zero, Nat.mul_one]
      rw [Nat.mul_comm place]
      omega

/-- A significand is scaled until it has all the digits of a format. -/
theorem scaled_bounds (positive : significand ≠ 0)
    (fits : significand.log2 ≤ format.precision - 1) :
    2 ^ (format.precision - 1) ≤
        significand * 2 ^ (format.precision - 1 - significand.log2) ∧
      significand * 2 ^ (format.precision - 1 - significand.log2) <
        2 * 2 ^ (format.precision - 1) := by
  have split : 2 ^ (format.precision - 1) =
      2 ^ significand.log2 * 2 ^ (format.precision - 1 - significand.log2) := by
    rw [← Nat.pow_add, Nat.add_sub_of_le fits]
  rw [split, ← Nat.mul_assoc, ← Nat.pow_succ']
  exact ⟨Nat.mul_le_mul_right _ (Nat.log2_self_le positive),
    Nat.mul_lt_mul_of_pos_right Nat.lt_log2_self (Nat.two_pow_pos _)⟩

/-- Where the least exponent is far away, a number fills all the digits of a format and is
found again scaled. -/
theorem pack_normal (format : BinaryFormat) {exponent : Int} {place : Nat}
    (normal : significand.log2 + exponent - (format.precision - 1) =
      format.leastExponent + place) :
    format.lastExponent significand exponent = format.leastExponent + place ∧
      format.pack significand exponent = place * 2 ^ (format.precision - 1) +
        significand * 2 ^ (format.precision - 1 - significand.log2) := by
  have last : format.lastExponent significand exponent = format.leastExponent + place := by
    rw [lastExponent, normal]
    omega
  have shift : (exponent - (format.leastExponent + place)).toNat =
      format.precision - 1 - significand.log2 := by
    omega
  have steps : (format.leastExponent + (place : Int) - format.leastExponent).toNat = place := by
    omega
  refine ⟨last, ?_⟩
  rw [pack, last, shift, steps]

/-- The parts of a finite number of 32 bits. -/
theorem unpack_single_bounds {code : Nat} {exponent : Int}
    (finite : code < single.infinityCode)
    (unpacked : single.unpack code = (significand, exponent)) :
    significand < 2 ^ 24 ∧ -149 ≤ exponent ∧ exponent ≤ 104 := by
  rw [show single.infinityCode = 255 * 2 ^ 23 from rfl] at finite
  have field : code / 2 ^ 23 < 255 := Nat.div_lt_of_lt_mul (by omega)
  have low := Nat.mod_lt code (Nat.two_pow_pos 23)
  change (if code / 2 ^ 23 = 0 then (code % 2 ^ 23, (-149 : Int))
    else (2 ^ 23 + code % 2 ^ 23, -149 + ((code / 2 ^ 23 - 1 : Nat) : Int))) = _ at unpacked
  split at unpacked
  · obtain ⟨rfl, rfl⟩ := Prod.mk.inj unpacked
    omega
  · obtain ⟨rfl, rfl⟩ := Prod.mk.inj unpacked
    omega

theorem code_eq_zero {code : Nat} {exponent : Int}
    (unpacked : format.unpack code = (0, exponent)) : code = 0 := by
  have whole := Nat.div_add_mod code (2 ^ (format.precision - 1))
  have positive := Nat.two_pow_pos (format.precision - 1)
  rw [unpack] at unpacked
  simp only [Nat.pow_eq] at unpacked
  split at unpacked
  · next small =>
      have fraction := (Prod.mk.inj unpacked).1
      rw [small, fraction] at whole
      simpa using whole.symm
  · have impossible := (Prod.mk.inj unpacked).1
    omega

end BinaryFormat

namespace Binary

open BinaryFormat

/-- A finite number other than zero is converted to a format that has room for it. -/
theorem convert_eq_pack {format : BinaryFormat} {x : Binary format} (target : BinaryFormat)
    (finite : x.isFinite) (whole : Nat) {significand : Nat} {exponent value : Int}
    (unpacked : format.unpack x.code = (significand * 2 ^ whole, exponent))
    (balance : exponent + whole = value) (positive : significand ≠ 0)
    (fits : target.lastExponent significand value ≤ value)
    (room : target.pack significand value < target.infinityCode) :
    x.convert target = ⟨x.negative, target.pack significand value⟩ := by
  have number : x.isNan = false := by
    simp only [isNan, isFinite, decide_eq_true_eq, decide_eq_false_iff_not] at finite ⊢
    omega
  obtain ⟨up, down, scaled, same⟩ := exists_scale_one significand whole exponent
  rw [balance] at same
  rw [convert, number, finite, unpacked]
  simp only [scaled, ofQuotient, roundCode_exact positive same fits,
    Nat.min_eq_right (Nat.le_of_lt room)]
  rfl

/-- A number of 32 bits that is finite becomes one of 64 bits that is finite and that is
rounded back to it. -/
theorem convert_single_double {x : Binary32} (finite : x.isFinite) :
    (x.convert .double).isFinite ∧ (x.convert .double).convert .single = x := by
  obtain ⟨negative, code⟩ := x
  have below : code < single.infinityCode := of_decide_eq_true finite
  obtain ⟨⟨significand, exponent⟩, unpacked⟩ :
      ∃ parts, single.unpack code = parts := ⟨_, rfl⟩
  by_cases positive : significand = 0
  · subst positive
    obtain rfl := code_eq_zero unpacked
    cases negative <;> decide
  · obtain ⟨few, low, high⟩ := unpack_single_bounds below unpacked
    have digits : significand.log2 < 24 := (Nat.log2_lt positive).2 few
    obtain ⟨own, packed⟩ := pack_unpack (by decide) unpacked positive
    obtain ⟨place, normal⟩ : ∃ place : Nat, significand.log2 + exponent - (53 - 1) =
        (-1074 : Int) + place :=
      ⟨(significand.log2 + exponent + 1022).toNat, by omega⟩
    have fits : significand.log2 ≤ double.precision - 1 := by
      change significand.log2 ≤ 52
      omega
    obtain ⟨last, wide⟩ := pack_normal .double normal
    obtain ⟨full, bound⟩ := scaled_bounds positive fits
    have room : double.pack significand exponent < double.infinityCode := by
      rw [wide, show double.infinityCode = 2047 * 2 ^ 52 from rfl]
      change _ < 2 * 2 ^ 52 at bound
      change place * 2 ^ 52 + _ < 2047 * 2 ^ 52
      omega
    have widened : (⟨negative, code⟩ : Binary32).convert .double =
        ⟨negative, double.pack significand exponent⟩ := by
      refine convert_eq_pack .double finite 0 ?_ (Int.add_zero exponent) positive ?_ room
      · rw [Nat.pow_zero, Nat.mul_one]
        exact unpacked
      · rw [last]
        change (-1074 : Int) + place ≤ exponent
        omega
    have wideFinite : (⟨negative, double.pack significand exponent⟩ : Binary64).isFinite :=
      decide_eq_true room
    rw [widened]
    refine ⟨wideFinite, ?_⟩
    have parts : double.unpack (double.pack significand exponent) =
        (significand * 2 ^ (double.precision - 1 - significand.log2),
          double.leastExponent + place) := by
      rw [wide, unpack_add place full bound]
    have balance : double.leastExponent + (place : Int) +
        (double.precision - 1 - significand.log2 : Nat) = exponent := by
      change (-1074 : Int) + place + (52 - significand.log2 : Nat) = exponent
      omega
    have narrowed := convert_eq_pack .single wideFinite _ parts balance positive
      (Int.le_of_eq own) (by rw [packed]; exact below)
    rw [narrowed, packed]

end Binary

end XmlRecords
