import Mathlib.Data.Int.Order.Basic
import Mathlib.Tactic.IntervalCases
import Mathlib.Tactic.Linarith

/-!
The proleptic Gregorian calendar, counted in days from 1970-01-01 both ways.
The calendar is given by its rules: which years are leap, how long a month is,
and which date follows a date; the date of a day is reached from the epoch one
date after the other. The number of a date grows by one with the date, so it
determines the date and can be computed without counting.
-/

namespace TimeLake.Library.Gregorian

/-- Every fourth year is leap, of the centuries every fourth. -/
def IsLeap (year : Int) : Prop := 4 ∣ year ∧ (¬ 100 ∣ year ∨ 400 ∣ year)

instance (year : Int) : Decidable (IsLeap year) := inferInstanceAs (Decidable (_ ∧ _))

def leapDay (year : Int) : Nat := if IsLeap year then 1 else 0

def monthLength (year : Int) : Nat → Nat
  | 2 => 28 + leapDay year
  | 4 | 6 | 9 | 11 => 30
  | _ => 31

/-- A date that the calendar has. -/
@[ext] structure Date where
  year : Int
  month : Nat
  day : Nat
  one_le_month : 1 ≤ month
  month_le : month ≤ 12
  one_le_day : 1 ≤ day
  day_le : day ≤ monthLength year month

theorem one_le_monthLength (year : Int) (month : Nat) : 1 ≤ monthLength year month := by
  unfold monthLength
  split <;> omega

def Date.epoch : Date := ⟨1970, 1, 1, by decide, by decide, by decide, by decide⟩

/-- The date after a date. -/
def Date.next (d : Date) : Date :=
  if hday : d.day < monthLength d.year d.month then
    ⟨d.year, d.month, d.day + 1, d.one_le_month, d.month_le, by omega, hday⟩
  else if hmonth : d.month < 12 then
    ⟨d.year, d.month + 1, 1, by omega, hmonth, by decide, one_le_monthLength _ _⟩
  else
    ⟨d.year + 1, 1, 1, by decide, by decide, by decide, one_le_monthLength _ _⟩

/-- The date before a date. -/
def Date.prev (d : Date) : Date :=
  if hday : 1 < d.day then
    ⟨d.year, d.month, d.day - 1, d.one_le_month, d.month_le, by omega,
      (Nat.sub_le _ _).trans d.day_le⟩
  else if hmonth : 1 < d.month then
    ⟨d.year, d.month - 1, monthLength d.year (d.month - 1), by omega,
      (Nat.sub_le _ _).trans d.month_le, one_le_monthLength _ _, le_refl _⟩
  else
    ⟨d.year - 1, 12, 31, by decide, by decide, by decide, le_refl 31⟩

theorem Date.next_prev (d : Date) : d.prev.next = d := by
  have hlast := d.day_le
  have hfirst := d.one_le_day
  have hjanuary := d.one_le_month
  have hdecember := d.month_le
  unfold Date.prev
  by_cases hday : 1 < d.day
  · rw [dif_pos hday, Date.next, dif_pos (by dsimp only; omega)]
    ext <;> dsimp only
    omega
  · rw [dif_neg hday]
    by_cases hmonth : 1 < d.month
    · rw [dif_pos hmonth, Date.next, dif_neg (lt_irrefl _), dif_pos (by dsimp only; omega)]
      ext <;> dsimp only <;> omega
    · have hlength : monthLength (d.year - 1) 12 = 31 := rfl
      rw [dif_neg hmonth, Date.next, dif_neg (by dsimp only; omega), dif_neg (by dsimp only; omega)]
      ext <;> dsimp only <;> omega

/-- The date of a day, counted from 1970-01-01. -/
def Date.ofDay : Int → Date
  | .ofNat n => Date.next^[n] Date.epoch
  | .negSucc n => Date.prev^[n + 1] Date.epoch

theorem Date.ofDay_succ (day : Int) : Date.ofDay (day + 1) = (Date.ofDay day).next := by
  rcases day with n | n
  · exact Function.iterate_succ_apply' Date.next n Date.epoch
  · rw [Date.ofDay, Function.iterate_succ_apply', Date.next_prev]
    cases n with
    | zero => rfl
    | succ n => rfl

/-- The days of the first months of a year. -/
def daysInMonths (year : Int) : Nat → Nat
  | 0 => 0
  | month + 1 => daysInMonths year month + monthLength year (month + 1)

/-- The days from the first day of the year 1 to the first of a year. -/
def daysBeforeYear (year : Int) : Int :=
  365 * (year - 1) + (year - 1) / 4 - (year - 1) / 100 + (year - 1) / 400

/-- Days since 1970-01-01, negative before it. -/
def Date.dayNumber (d : Date) : Int :=
  daysBeforeYear d.year - daysBeforeYear 1970 + daysInMonths d.year (d.month - 1) + (d.day - 1)

theorem dayNumber_epoch : Date.epoch.dayNumber = 0 := by decide

theorem daysBeforeYear_succ (year : Int) :
    daysBeforeYear (year + 1) = daysBeforeYear year + 365 + leapDay year := by
  unfold daysBeforeYear leapDay
  by_cases hleap : IsLeap year
  · rw [if_pos hleap]
    unfold IsLeap at hleap
    omega
  · rw [if_neg hleap]
    unfold IsLeap at hleap
    omega

theorem daysInMonths_year (year : Int) : daysInMonths year 12 = 365 + leapDay year := by
  simp only [daysInMonths, monthLength]
  omega

theorem daysInMonths_mono (year : Int) {a b : Nat} (h : a ≤ b) :
    daysInMonths year a ≤ daysInMonths year b := by
  induction b, h using Nat.le_induction with
  | base => exact le_refl _
  | succ month _ ih => exact ih.trans (Nat.le_add_right _ _)

theorem daysBeforeYear_mono {a b : Int} (h : a ≤ b) : daysBeforeYear a ≤ daysBeforeYear b := by
  unfold daysBeforeYear
  omega

theorem Date.daysInMonths_month (d : Date) :
    daysInMonths d.year d.month =
      daysInMonths d.year (d.month - 1) + monthLength d.year d.month := by
  obtain ⟨month, hsucc⟩ := Nat.exists_eq_add_of_le' d.one_le_month
  rw [hsucc]
  rfl

/-- The day number counts the days of the calendar. -/
theorem dayNumber_next (d : Date) : d.next.dayNumber = d.dayNumber + 1 := by
  have hmonth := d.daysInMonths_month
  have hday := d.day_le
  have hpos := d.one_le_day
  unfold Date.next
  by_cases hlt : d.day < monthLength d.year d.month
  · rw [dif_pos hlt]
    unfold Date.dayNumber
    dsimp only
    omega
  · rw [dif_neg hlt]
    by_cases hlast : d.month < 12
    · rw [dif_pos hlast]
      unfold Date.dayNumber
      simp only [Nat.add_sub_cancel]
      omega
    · rw [dif_neg hlast]
      obtain hlast : d.month = 12 := by
        have := d.month_le
        omega
      have hyear := daysInMonths_year d.year
      have hsucc := daysBeforeYear_succ d.year
      have hfirst : daysInMonths (d.year + 1) (1 - 1) = 0 := rfl
      unfold Date.dayNumber
      dsimp only
      rw [hlast] at hmonth hday hlt ⊢
      rw [hfirst, hsucc]
      omega

/-- A date lies in its month, and its month in its year. -/
theorem Date.day_bounds (d : Date) :
    daysInMonths d.year (d.month - 1) + d.day ≤ daysInMonths d.year d.month ∧
      daysInMonths d.year d.month ≤ 365 + leapDay d.year := by
  have hday := d.day_le
  have hmonth := d.daysInMonths_month
  have hyear := daysInMonths_mono d.year d.month_le
  rw [daysInMonths_year] at hyear
  omega

/-- Dates compare as their numbers. -/
theorem dayNumber_lt {a b : Date}
    (h : a.year < b.year ∨ (a.year = b.year ∧ (a.month < b.month ∨
      (a.month = b.month ∧ a.day < b.day)))) :
    a.dayNumber < b.dayNumber := by
  obtain ⟨hday, hyear⟩ := a.day_bounds
  have hb := b.one_le_day
  unfold Date.dayNumber
  rcases h with hlt | ⟨heq, hlt | ⟨hmonth, hlt⟩⟩
  · have hmono := daysBeforeYear_mono (a := a.year + 1) (b := b.year) (by omega)
    rw [daysBeforeYear_succ] at hmono
    omega
  · have hmono := daysInMonths_mono b.year (a := a.month) (b := b.month - 1) (by omega)
    rw [heq] at hday ⊢
    omega
  · rw [heq, hmonth]
    omega

theorem dayNumber_injective : Function.Injective Date.dayNumber := by
  intro a b h
  have hab := mt dayNumber_lt (not_lt.mpr h.ge)
  have hba := mt dayNumber_lt (not_lt.mpr h.le)
  ext <;> omega

theorem dayNumber_ofDay (day : Int) : (Date.ofDay day).dayNumber = day := by
  induction day using Int.induction_on with
  | zero => exact dayNumber_epoch
  | succ n ih => rw [Date.ofDay_succ, dayNumber_next, ih]
  | pred n ih =>
      have hnext := dayNumber_next (Date.ofDay (-n - 1))
      rw [← Date.ofDay_succ, Int.sub_add_cancel, ih] at hnext
      omega

theorem eq_ofDay {d : Date} {day : Int} (h : d.dayNumber = day) : d = Date.ofDay day :=
  dayNumber_injective (h.trans (dayNumber_ofDay day).symm)

end TimeLake.Library.Gregorian
