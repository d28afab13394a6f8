import XmlRecords.Time.Calendar

/-!
# Counting days

The number of a day is the sum of the lengths of all years between it and 1970, of the
months in front of it and of the days in front of it.
-/

namespace XmlRecords.Date

/-- The days of the first months of a year. -/
def daysOfMonths (year : Int) : Nat → Nat
  | 0 => 0
  | month + 1 => daysOfMonths year month + monthLength year (month + 1)

/-- The number of days in a year. -/
def yearLength (year : Int) : Nat := daysOfMonths year 12

/-- The days of so many years from a first one on. -/
def daysOfYears (first : Int) : Nat → Nat
  | 0 => 0
  | count + 1 => daysOfYears first count + yearLength (first + count)

/-- The days from 1970-01-01 to a date, counted by years, months and days. -/
def daysSince1970 (d : Date) : Int :=
  daysOfYears 1970 (d.year - 1970).toNat - daysOfYears d.year (1970 - d.year).toNat +
    daysOfMonths d.year (d.month - 1) + (d.day - 1)

theorem monthLength_le (year : Int) (month : Nat) : monthLength year month ≤ 31 := by
  rw [monthLength]
  split
  · split <;> decide
  · split <;> decide

theorem daysOfMonths_le (year : Int) {first last : Nat} (ordered : first ≤ last) :
    daysOfMonths year first ≤ daysOfMonths year last := by
  induction ordered with
  | refl => exact Nat.le_refl _
  | step _ ih => exact Nat.le_trans ih (Nat.le_add_right _ _)

theorem daysBeforeMonth_succ_eq (year : Int) (count : Nat) :
    daysBeforeMonth year (count + 1) = daysOfMonths year count := by
  induction count with
  | zero => rfl
  | succ count ih =>
      rw [daysOfMonths, ← ih]
      simp only [daysBeforeMonth, Nat.add_sub_cancel, List.range_succ, List.foldl_append,
        List.foldl_cons, List.foldl_nil]

theorem yearLength_eq (year : Int) :
    yearLength year = if isLeapYear year then 366 else 365 := by
  cases leap : isLeapYear year <;>
    simp [yearLength, daysOfMonths, monthLength, leap]

theorem yearStart_add_one (year : Int) :
    yearStart (year + 1) = yearStart year + yearLength year := by
  rw [yearLength_eq, isLeapYear]
  simp only [yearStart, Bool.and_eq_true, Bool.or_eq_true, beq_iff_eq, bne_iff_ne]
  split <;> omega

/-- Between two years lie the years from one to the other. -/
theorem yearStart_add (first : Int) (count : Nat) :
    yearStart (first + count) = yearStart first + daysOfYears first count := by
  induction count with
  | zero => simp [daysOfYears]
  | succ count ih =>
      rw [Int.natCast_succ, ← Int.add_assoc, yearStart_add_one, ih, daysOfYears]
      omega

theorem yearStart_le {first last : Int} (ordered : first ≤ last) :
    yearStart first ≤ yearStart last := by
  obtain ⟨count, rfl⟩ := Int.le.dest ordered
  rw [yearStart_add]
  omega

/-- Years after 1970 count forwards, and those in front of it backwards. -/
theorem yearStart_eq (year : Int) :
    yearStart year =
      daysOfYears 1970 (year - 1970).toNat - daysOfYears year (1970 - year).toNat := by
  have start : yearStart 1970 = 0 := rfl
  rcases Int.le_total 1970 year with later | earlier
  · have year_eq : 1970 + ((year - 1970).toNat : Int) = year := by omega
    have whole := yearStart_add 1970 (year - 1970).toNat
    have nothing : daysOfYears year (1970 - year).toNat = 0 := by
      rw [Int.toNat_of_nonpos (by omega)]
      rfl
    rw [year_eq] at whole
    omega
  · have year_eq : year + ((1970 - year).toNat : Int) = 1970 := by omega
    have whole := yearStart_add year (1970 - year).toNat
    have nothing : daysOfYears 1970 (year - 1970).toNat = 0 := by
      rw [Int.toNat_of_nonpos (by omega)]
      rfl
    rw [year_eq] at whole
    omega

/-- The month and the day exist. -/
def InCalendar (d : Date) : Prop :=
  (1 ≤ d.month ∧ d.month ≤ 12) ∧ 1 ≤ d.day ∧ d.day ≤ monthLength d.year d.month

instance (d : Date) : Decidable d.InCalendar := inferInstanceAs (Decidable (_ ∧ _))

namespace InCalendar

variable {d : Date}

theorem daysBeforeMonth_eq (inCalendar : d.InCalendar) :
    daysBeforeMonth d.year d.month = daysOfMonths d.year (d.month - 1) := by
  obtain ⟨count, month_eq⟩ := Nat.exists_eq_add_of_le' inCalendar.1.1
  rw [month_eq, daysBeforeMonth_succ_eq, Nat.add_sub_cancel]

/-- The number of a day counts the days since 1970. -/
theorem dayNumber_eq (inCalendar : d.InCalendar) : d.dayNumber = d.daysSince1970 := by
  rw [dayNumber, daysSince1970, yearStart_eq, inCalendar.daysBeforeMonth_eq]
  omega

/-- The days of a year lie between its start and the start of the next. -/
theorem dayNumber_mem (inCalendar : d.InCalendar) :
    yearStart d.year ≤ d.dayNumber ∧ d.dayNumber < yearStart (d.year + 1) := by
  have before := inCalendar.daysBeforeMonth_eq
  obtain ⟨⟨firstMonth, lastMonth⟩, firstDay, lastDay⟩ := inCalendar
  have within := daysOfMonths_le d.year lastMonth
  have last : daysOfMonths d.year (d.month - 1 + 1) =
      daysOfMonths d.year (d.month - 1) + monthLength d.year (d.month - 1 + 1) := rfl
  rw [Nat.sub_add_cancel firstMonth] at last
  rw [dayNumber, yearStart_add_one, yearLength]
  omega

end InCalendar

example : daysSince1970 ⟨2000, 2, 29⟩ = 11016 := by decide +kernel

end XmlRecords.Date
