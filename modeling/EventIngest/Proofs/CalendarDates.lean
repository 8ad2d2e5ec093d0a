import EventIngest.Calendar
import Mathlib.Order.Monotone.Basic
import Mathlib.Order.SuccPred.LinearLocallyFinite
import Mathlib.Tactic.IntervalCases
/-!
# Dates of the calendar

The days counted from the start of 1970 are the dates of the proleptic Gregorian calendar one after
another, in both directions: each number has exactly one date, and the next number has the next
date. So an instant has exactly one date and time of day, from which its milliseconds are got back.
-/
namespace EventIngest

def TimeOfDay.IsValid (t : TimeOfDay) : Prop :=
  t.hour < 24 ∧ t.minute < 60 ∧ t.second < 60 ∧ t.milli < 1000

def DateTime.IsValid (d : DateTime) : Prop := Calendar.IsValid d.date ∧ d.time.IsValid

namespace Calendar

def nextDate (d : Date) : Date :=
  if d.day < daysInMonth d.year d.month then { d with day := d.day + 1 }
  else if d.month < 12 then ⟨d.year, d.month + 1, 1⟩
  else ⟨d.year + 1, 1, 1⟩

section Months

variable {y : Int} {m : Nat}

theorem daysInMonth_pos : 0 < daysInMonth y m := by
  unfold daysInMonth
  split
  · split <;> decide
  · split <;> decide

theorem daysInFebruary : daysInMonth y 2 = if isLeapYear y then 29 else 28 := rfl

theorem daysBeforeMonth_succ (h : 0 < m) :
    daysBeforeMonth y (m + 1) = daysBeforeMonth y m + daysInMonth y m := by
  have hKept : decide (1 ≤ m) = true := decide_eq_true h
  rw [daysBeforeMonth, List.range_succ, List.filter_append, List.foldl_append, daysBeforeMonth]
  simp [hKept]

theorem daysBeforeMonth_mono : Monotone (daysBeforeMonth y) := by
  refine monotone_nat_of_le_succ fun m => ?_
  cases m with
  | zero => exact le_rfl
  | succ m =>
    rw [daysBeforeMonth_succ m.succ_pos]
    exact Nat.le_add_right _ _

theorem daysBeforeMarch : daysBeforeMonth y 3 = 31 + daysInMonth y 2 := by
  rw [daysBeforeMonth_succ (by decide), daysBeforeMonth_succ (by decide)]
  rfl

/-- From March on the months before the `k`-th one have as many days in every year. -/
theorem daysBeforeMonth_fromMarch {k : Nat} (h : k ≤ 10) :
    daysBeforeMonth y (k + 3) = 31 + daysInMonth y 2 + (153 * k + 2) / 5 := by
  induction k with
  | zero => exact daysBeforeMarch
  | succ k ih =>
    have hLength : daysInMonth y (k + 3) + (153 * k + 2) / 5 = (153 * (k + 1) + 2) / 5 := by
      have hLess : k < 10 := h
      interval_cases k <;> rfl
    rw [Nat.add_right_comm, daysBeforeMonth_succ (by omega), ih (by omega)]
    omega

theorem daysOfYear : daysBeforeMonth y 13 = if isLeapYear y then 366 else 365 := by
  have hMonths := daysBeforeMonth_fromMarch (y := y) (Nat.le_refl 10)
  rw [hMonths, daysInFebruary]
  split <;> rfl

end Months

section Years

theorem daysBeforeYear_eq (y : Int) :
    daysBeforeYear y = 365 * y + (y + 3) / 4 - (y + 99) / 100 + (y + 399) / 400 := by
  rw [daysBeforeYear, Int.fdiv_eq_ediv_of_nonneg _ (by decide),
    Int.fdiv_eq_ediv_of_nonneg _ (by decide), Int.fdiv_eq_ediv_of_nonneg _ (by decide)]

theorem daysBeforeYear_succ (y : Int) :
    daysBeforeYear (y + 1) = daysBeforeYear y + daysBeforeMonth y 13 := by
  rw [daysOfYear, daysBeforeYear_eq, daysBeforeYear_eq]
  simp only [isLeapYear, decide_eq_true_eq]
  split <;> omega

theorem daysBeforeYear_mono {y z : Int} (h : y ≤ z) : daysBeforeYear y ≤ daysBeforeYear z := by
  have hStep (y : Int) : daysBeforeYear y ≤ daysBeforeYear (y + 1) := by
    rw [daysBeforeYear_succ]
    omega
  exact monotone_int_of_le_succ hStep h

theorem daysBeforeYear_1970 : daysBeforeYear 1970 = 719528 := by decide

end Years

section DayNumbers

variable {d d' : Date}

theorem dayNumber_eq (d : Date) :
    dayNumber d = daysBeforeYear d.year + daysBeforeMonth d.year d.month + d.day - 719529 := by
  rw [dayNumber, daysBeforeYear_1970]
  omega

/-- The day lies within its month. -/
theorem month_bounds (h : IsValid d) :
    daysBeforeMonth d.year d.month < daysBeforeMonth d.year d.month + d.day ∧
      daysBeforeMonth d.year d.month + d.day ≤ daysBeforeMonth d.year (d.month + 1) := by
  obtain ⟨hMonth, -, hDay, hLast⟩ := h
  rw [daysBeforeMonth_succ hMonth]
  omega

/-- The day lies within its year. -/
theorem year_bounds (h : IsValid d) :
    daysBeforeYear d.year ≤ dayNumber d + 719528 ∧
      dayNumber d + 719528 < daysBeforeYear (d.year + 1) := by
  obtain ⟨hAfter, hUpTo⟩ := month_bounds h
  have hWithin : daysBeforeMonth d.year (d.month + 1) ≤ daysBeforeMonth d.year 13 :=
    daysBeforeMonth_mono (Nat.succ_le_succ h.2.1)
  rw [dayNumber_eq, daysBeforeYear_succ]
  omega

theorem dayNumber_injective (h : IsValid d) (h' : IsValid d') (hSame : dayNumber d = dayNumber d') :
    d = d' := by
  obtain ⟨hFrom, hTo⟩ := year_bounds h
  obtain ⟨hFrom', hTo'⟩ := year_bounds h'
  have hYear : d.year = d'.year := by
    rcases Int.lt_trichotomy d.year d'.year with hLess | hEqual | hGreater
    · have hOrder := daysBeforeYear_mono (show d.year + 1 ≤ d'.year from hLess)
      omega
    · exact hEqual
    · have hOrder := daysBeforeYear_mono (show d'.year + 1 ≤ d.year from hGreater)
      omega
  obtain ⟨y, m, k⟩ := d
  obtain ⟨y', m', k'⟩ := d'
  obtain rfl : y = y' := hYear
  rw [dayNumber_eq, dayNumber_eq] at hSame
  obtain ⟨hAfter, hUpTo⟩ := month_bounds h
  obtain ⟨hAfter', hUpTo'⟩ := month_bounds h'
  dsimp only at hSame hAfter hUpTo hAfter' hUpTo'
  have hMonth : m = m' := by
    rcases Nat.lt_trichotomy m m' with hLess | hEqual | hGreater
    · have hOrder := daysBeforeMonth_mono (y := y) (show m + 1 ≤ m' from hLess)
      omega
    · exact hEqual
    · have hOrder := daysBeforeMonth_mono (y := y) (show m' + 1 ≤ m from hGreater)
      omega
  subst hMonth
  obtain rfl : k = k' := by omega
  rfl

theorem nextDate_valid (h : IsValid d) : IsValid (nextDate d) := by
  obtain ⟨hMonth, hMonths, hDay, hLast⟩ := h
  unfold nextDate
  split
  · exact ⟨hMonth, hMonths, Nat.succ_pos _, ‹_›⟩
  · split
    · exact ⟨Nat.succ_pos _, ‹_›, Nat.le_refl 1, daysInMonth_pos⟩
    · exact ⟨Nat.le_refl 1, Nat.succ_pos 11, Nat.le_refl 1, daysInMonth_pos⟩

theorem dayNumber_nextDate (h : IsValid d) : dayNumber (nextDate d) = dayNumber d + 1 := by
  obtain ⟨hMonth, hMonths, hDay, hLast⟩ := h
  have hNext := daysBeforeMonth_succ (y := d.year) hMonth
  rw [dayNumber_eq, dayNumber_eq]
  unfold nextDate
  by_cases hWithinMonth : d.day < daysInMonth d.year d.month
  · rw [if_pos hWithinMonth]
    dsimp only
    omega
  rw [if_neg hWithinMonth]
  by_cases hWithinYear : d.month < 12
  · rw [if_pos hWithinYear]
    dsimp only
    omega
  · rw [if_neg hWithinYear]
    have hDecember : d.month = 12 := by omega
    have hJanuary : daysBeforeMonth (d.year + 1) 1 = 0 := rfl
    have hYear : daysBeforeMonth d.year 13 = daysBeforeMonth d.year 12 + daysInMonth d.year 12 :=
      daysBeforeMonth_succ (by decide)
    rw [hDecember] at hLast hWithinMonth ⊢
    dsimp only
    rw [daysBeforeYear_succ, hJanuary]
    omega

end DayNumbers

section Eras

/-- Days of an era before its year `y`, where each year begins in March. -/
def daysOfEra (y : Nat) : Nat := 365 * y + y / 4 - y / 100 + y / 400

theorem daysOfEra_bounds {n : Nat} (h : n < 146097) :
    ∃ y < 400, (n - n / 1460 + n / 36524 - n / 146096) / 365 = y ∧
      365 * y + y / 4 - y / 100 = daysOfEra y ∧ daysOfEra y ≤ n ∧ n < daysOfEra (y + 1) := by
  obtain hLast | hEarlier := Nat.eq_or_lt_of_le (Nat.le_of_lt_succ h)
  · subst hLast
    exact ⟨399, by decide⟩
  have hEnd : n / 146096 = 0 := by omega
  generalize hPlain : n - n / 1460 + n / 36524 - n / 146096 = k
  generalize hYear : k / 365 = y
  have hSum : k + n / 1460 = n + n / 36524 := by omega
  have hFour : y / 4 = k / 1460 := by rw [← hYear, Nat.div_div_eq_div_mul]
  have hHundred : y / 100 = k / 36500 := by rw [← hYear, Nat.div_div_eq_div_mul]
  have hCenturies : y / 100 = n / 36524 := by omega
  have hLeaps : y / 4 ≤ n / 1460 := by omega
  have hNext : n / 1460 ≤ (y + 1) / 4 := by omega
  have hLess : y < 400 := by omega
  refine ⟨y, hLess, rfl, ?_, ?_, ?_⟩
  · unfold daysOfEra
    omega
  · unfold daysOfEra
    omega
  · unfold daysOfEra
    clear hPlain hEnd hFour hHundred hLeaps
    by_cases hTurn : (y + 1) % 100 = 0
    · omega
    · have hSame : (y + 1) / 100 = y / 100 := by omega
      omega

theorem daysBeforeYear_march (y : Nat) (era : Int) :
    daysBeforeYear (y + era * 400) + daysInMonth (y + era * 400) 2 + 31
      = daysOfEra y + era * 146097 + 60 := by
  rw [daysInFebruary, daysBeforeYear_eq, daysOfEra]
  simp only [isLeapYear, decide_eq_true_eq]
  split <;> omega

/-- Twelve months from March on end with the February of the next year. -/
theorem daysBeforeYear_january (y : Nat) (era : Int) :
    daysBeforeYear (y + era * 400 + 1) = daysOfEra y + era * 146097 + 366 := by
  have hMarch := daysBeforeYear_march y era
  have hMonths := daysBeforeMonth_fromMarch (y := y + era * 400) (Nat.le_refl 10)
  rw [daysBeforeYear_succ, hMonths]
  omega

theorem dateOfDay_spec (n : Int) : IsValid (dateOfDay n) ∧ dayNumber (dateOfDay n) = n := by
  rw [dayNumber_eq]
  unfold dateOfDay IsValid
  simp only [Int.fdiv_eq_ediv_of_nonneg _ (show (0 : Int) ≤ 146097 by decide)]
  generalize hEra : (n + 719468) / 146097 = era
  generalize hDay : (n + 719468 - era * 146097).toNat = day
  have hShift : n + 719468 = era * 146097 + day := by omega
  obtain ⟨y, -, hYear, hStart, hFrom, hTo⟩ := daysOfEra_bounds (n := day) (by omega)
  rw [hYear, hStart]
  have hMarch := daysBeforeYear_march y era
  have hJanuary := daysBeforeYear_january y era
  have hNextMarch := daysBeforeYear_march (y + 1) era
  rw [show ((y + 1 : Nat) : Int) + era * 400 = y + era * 400 + 1 by omega] at hNextMarch
  generalize hOfYear : day - daysOfEra y = k
  generalize hMonth : (5 * k + 2) / 153 = m
  have hLess : m < 12 := by omega
  by_cases hSameYear : m < 10
  · have hMonths := daysBeforeMonth_fromMarch (y := y + era * 400) (k := m) (by omega)
    have hNextMonth := daysBeforeMonth_fromMarch (y := y + era * 400) (k := m + 1) (by omega)
    rw [Nat.add_right_comm, daysBeforeMonth_succ (by omega)] at hNextMonth
    rw [if_pos hSameYear, if_neg (by omega), Int.add_zero]
    omega
  · rw [if_neg hSameYear, if_pos (by omega)]
    obtain rfl | rfl : m = 10 ∨ m = 11 := by omega
    · have hFirst : daysBeforeMonth (y + era * 400 + 1) 1 = 0 := rfl
      have hLength : daysInMonth (y + era * 400 + 1) 1 = 31 := rfl
      rw [hFirst, hLength]
      omega
    · have hSecond : daysBeforeMonth (y + era * 400 + 1) 2 = 31 := rfl
      simp only [Nat.reduceSub, hSecond]
      omega

end Eras

theorem dateOfDay_eq_iff {n : Int} {d : Date} :
    dateOfDay n = d ↔ IsValid d ∧ dayNumber d = n := by
  obtain ⟨hValid, hNumber⟩ := dateOfDay_spec n
  constructor
  · rintro rfl
    exact ⟨hValid, hNumber⟩
  · rintro ⟨hOther, hSame⟩
    exact dayNumber_injective hValid hOther (hNumber.trans hSame.symm)

/-- The start of 1970 is day 0, and each day after another one has the next date. -/
theorem dateOfDay_steps :
    dateOfDay 0 = ⟨1970, 1, 1⟩ ∧ ∀ n, dateOfDay (n + 1) = nextDate (dateOfDay n) := by
  refine ⟨rfl, fun n => ?_⟩
  obtain ⟨hValid, hNumber⟩ := dateOfDay_spec n
  rw [dateOfDay_eq_iff, dayNumber_nextDate hValid, hNumber]
  exact ⟨nextDate_valid hValid, rfl⟩

section Instants

theorem timeOfMillis_spec {n : Nat} (h : n < 86400000) :
    (timeOfMillis n).IsValid ∧ millisOfTime (timeOfMillis n) = n := by
  unfold timeOfMillis TimeOfDay.IsValid millisOfTime
  dsimp only
  omega

theorem millisOfTime_lt {t : TimeOfDay} (h : t.IsValid) : millisOfTime t < 86400000 := by
  obtain ⟨hHour, hMinute, hSecond, hMilli⟩ := h
  unfold millisOfTime
  omega

theorem timeOfMillis_millisOfTime {t : TimeOfDay} (h : t.IsValid) :
    timeOfMillis (millisOfTime t) = t := by
  obtain ⟨hour, minute, second, milli⟩ := t
  obtain ⟨hHour, hMinute, hSecond, hMilli⟩ := h
  unfold millisOfTime timeOfMillis
  dsimp only at hHour hMinute hSecond hMilli ⊢
  rw [TimeOfDay.mk.injEq]
  omega

/-- An instant has exactly one date and time of day. -/
theorem ofMillis_eq_iff {t : Int} {d : DateTime} : ofMillis t = d ↔ d.IsValid ∧ toMillis d = t := by
  unfold ofMillis toMillis millisPerDay
  simp only [Int.fdiv_eq_ediv_of_nonneg _ (show (0 : Int) ≤ 86400000 by decide)]
  constructor
  · rintro rfl
    obtain ⟨hDate, hNumber⟩ := dateOfDay_spec (t / 86400000)
    have hLess : (t - t / 86400000 * 86400000).toNat < 86400000 := by omega
    obtain ⟨hTime, hMillis⟩ := timeOfMillis_spec hLess
    refine ⟨⟨hDate, hTime⟩, ?_⟩
    dsimp only
    rw [hNumber, hMillis]
    omega
  · rintro ⟨⟨hDate, hTime⟩, rfl⟩
    obtain ⟨date, time⟩ := d
    dsimp only at hDate hTime ⊢
    have hLess := millisOfTime_lt hTime
    have hDay : (dayNumber date * 86400000 + millisOfTime time) / 86400000 = dayNumber date := by
      omega
    rw [hDay, DateTime.mk.injEq]
    constructor
    · exact dateOfDay_eq_iff.mpr ⟨hDate, rfl⟩
    · rw [add_sub_cancel_left, Int.toNat_natCast, timeOfMillis_millisOfTime hTime]

/-- The instants that the calendar covers are the ones of the years from -262143 to 262142. -/
theorem covers_iff (t : Int) :
    covers t = true ↔ -262143 ≤ (ofMillis t).date.year ∧ (ofMillis t).date.year ≤ 262142 := by
  obtain ⟨hValid, hMillis⟩ := ofMillis_eq_iff.mp (rfl : ofMillis t = ofMillis t)
  obtain ⟨hFrom, hTo⟩ := year_bounds hValid.1
  have hLess := millisOfTime_lt hValid.2
  unfold toMillis millisPerDay at hMillis
  generalize ofMillis t = d at hFrom hTo hLess hMillis ⊢
  have hEarliest : daysBeforeYear (-262143) = -95745764 := by decide
  have hLatest : daysBeforeYear 262143 = 95745765 := by decide
  unfold covers earliest latest
  rw [decide_eq_true_eq]
  constructor
  · rintro ⟨hAfter, hBefore⟩
    constructor
    · by_contra hSmall
      have hOrder := daysBeforeYear_mono (show d.date.year + 1 ≤ -262143 by omega)
      omega
    · by_contra hLarge
      have hOrder := daysBeforeYear_mono (show 262143 ≤ d.date.year by omega)
      omega
  · rintro ⟨hSmallest, hLargest⟩
    have hOrder := daysBeforeYear_mono hSmallest
    have hOrder' := daysBeforeYear_mono (show d.date.year + 1 ≤ 262143 by omega)
    omega

end Instants

end Calendar

end EventIngest
