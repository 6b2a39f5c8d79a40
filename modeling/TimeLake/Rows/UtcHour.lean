import TimeLake.Rows.Calendar
import TimeLake.Library.Gregorian

/-!
The hour partition against the calendar. `civil_from_days` counts its years
from March: a year of that count begins 306 days before the first of January
of the next calendar year, so the leap day is its last day and the lengths of
its months do not depend on the year. With the rules of the calendar this makes
the date it returns the date of the day it was given, on both sides of 1970.
-/

namespace TimeLake.Rows

open TimeLake.Library

/-- The day of a year that begins in March is below the length of that year,
which ends with the February of the next calendar year. -/
theorem marchYear_lt_length (days : Int) :
    (marchYear days).2 < 365 + Gregorian.leapDay ((marchYear days).1 + 1) := by
  obtain ⟨h0, h400, hlo, hhi⟩ :=
    yearStart_le ((days + 719468) % 146097) (by omega) (by omega)
  have hera : (days + 719468) % 146097 < 146097 := by omega
  unfold marchYear
  dsimp only
  have hdiv : leapless ((days + 719468) % 146097) <
      365 * (leapless ((days + 719468) % 146097) / 365 + 1) := by omega
  generalize (days + 719468) / 146097 = era
  generalize (days + 719468) % 146097 = doe at *
  generalize hyoe : leapless doe / 365 = yoe at *
  have hend : doe < yearStart (yoe + 1) ∨ yoe = 399 := by
    by_cases hlast : yoe = 399
    · exact Or.inr hlast
    · left
      by_contra hnot
      have hnext := (yearStart_leapless (y := yoe + 1) (by omega) (by omega)).1
      have hmono := leapless_mono (a := yearStart (yoe + 1)) (b := doe) (by omega)
      omega
  unfold Gregorian.leapDay
  by_cases hleap : Gregorian.IsLeap (yoe + era * 400 + 1)
  · rw [if_pos hleap]
    omega
  · rw [if_neg hleap]
    unfold Gregorian.IsLeap at hleap
    unfold yearStart at hend ⊢
    omega

/-- The first day of a March year, by the calendar. -/
theorem marchYear_days (days : Int) :
    Gregorian.daysBeforeYear ((marchYear days).1 + 1) - Gregorian.daysBeforeYear 1970 - 306 +
      (marchYear days).2 = days := by
  obtain ⟨h0, h400, -, -⟩ := yearStart_le ((days + 719468) % 146097) (by omega) (by omega)
  have hsplit : (days + 719468) % 146097 + 146097 * ((days + 719468) / 146097) =
      days + 719468 := by omega
  unfold marchYear Gregorian.daysBeforeYear yearStart
  dsimp only
  generalize (days + 719468) / 146097 = era at *
  generalize (days + 719468) % 146097 = doe at *
  generalize leapless doe / 365 = yoe at *
  omega

/-- March to December: five months are 153 days. -/
theorem months_from_march (year : Int) {mp : Nat} (h : mp < 10) :
    Gregorian.daysInMonths year (mp + 2) =
        59 + Gregorian.leapDay year + (153 * mp + 2) / 5 ∧
      Gregorian.monthLength year (mp + 3) + (153 * mp + 2) / 5 = (153 * (mp + 1) + 2) / 5 := by
  interval_cases mp <;> simp [Gregorian.daysInMonths, Gregorian.monthLength] <;> omega

/-- The months of a March year follow the calendar's. -/
theorem marchDate_date {y doy : Int} (h0 : 0 ≤ doy)
    (hlen : doy < 365 + Gregorian.leapDay (y + 1)) :
    ∃ date : Gregorian.Date, marchDate y doy = (date.year, date.month, date.day) ∧
      date.dayNumber =
        Gregorian.daysBeforeYear (y + 1) - Gregorian.daysBeforeYear 1970 - 306 + doy := by
  have hleap : Gregorian.leapDay (y + 1) ≤ 1 := by
    unfold Gregorian.leapDay
    split <;> omega
  obtain ⟨mp, hdiv⟩ := Int.eq_ofNat_of_zero_le (a := (5 * doy + 2) / 153) (by omega)
  obtain ⟨d, hd⟩ := Int.eq_ofNat_of_zero_le (a := doy - (153 * mp + 2) / 5) (by omega)
  unfold marchDate
  rw [hdiv]
  by_cases hmp : mp < 10
  · obtain ⟨hbefore, hlength⟩ := months_from_march y hmp
    have hyear := Gregorian.daysBeforeYear_succ y
    have hcast : (153 * mp + 2 : Int) / 5 = ((153 * mp + 2) / 5 : Nat) := by norm_cast
    refine ⟨⟨y, mp + 3, d + 1, by omega, by omega, by omega, by omega⟩, ?_, ?_⟩
    · dsimp only
      rw [if_pos (show (mp : Int) < 10 by omega), if_neg (by omega), hd]
      ext <;> dsimp only <;> omega
    · unfold Gregorian.Date.dayNumber
      dsimp only
      rw [show mp + 3 - 1 = mp + 2 from rfl, hbefore]
      omega
  · obtain rfl | rfl : mp = 10 ∨ mp = 11 := by omega
    · refine ⟨⟨y + 1, 1, d + 1, by decide, by decide, by omega, ?_⟩, ?_, ?_⟩
      · have hlength : Gregorian.monthLength (y + 1) 1 = 31 := rfl
        omega
      · dsimp only
        rw [if_pos (by decide), if_neg (by decide), hd]
        rfl
      · have hbefore : Gregorian.daysInMonths (y + 1) (1 - 1) = 0 := rfl
        unfold Gregorian.Date.dayNumber
        dsimp only
        omega
    · refine ⟨⟨y + 1, 2, d + 1, by decide, by decide, by omega, ?_⟩, ?_, ?_⟩
      · have hlength : Gregorian.monthLength (y + 1) 2 = 28 + Gregorian.leapDay (y + 1) := rfl
        omega
      · dsimp only
        rw [if_pos (by decide), if_neg (by decide), hd]
        rfl
      · have hbefore : Gregorian.daysInMonths (y + 1) (2 - 1) = 31 := rfl
        unfold Gregorian.Date.dayNumber
        dsimp only
        omega

/-- `civil_from_days` returns the date of the day it is given. -/
theorem civilFromDays_ofDay (days : Int) :
    civilFromDays days = ((Gregorian.Date.ofDay days).year, (Gregorian.Date.ofDay days).month,
      (Gregorian.Date.ofDay days).day) := by
  obtain ⟨date, hdate, hnumber⟩ :=
    marchDate_date (marchYear_doy days).1 (marchYear_lt_length days)
  rw [marchYear_days] at hnumber
  rw [civilFromDays_eq, hdate, Gregorian.eq_ofDay hnumber]

/-- The partition of a timestamp is its hour in UTC: the year in four digits,
the month, the day and the hour in two each, of the date the calendar gives the
day of the instant. Timestamps of one hour share it, and the order of the texts
is the order of the hours. -/
theorem hourPartition_utc_hour (ts other : Int64) :
    hourPartition ts.toInt = String.ofList
        (padInt 4 (Gregorian.Date.ofDay (ts.toInt / hourNs / 24)).year ++
          padNat 2 (Gregorian.Date.ofDay (ts.toInt / hourNs / 24)).month ++
          padNat 2 (Gregorian.Date.ofDay (ts.toInt / hourNs / 24)).day ++
          padNat 2 (ts.toInt / hourNs % 24).toNat) ∧
      (hourPartition ts.toInt).toList.length = 10 ∧
      (∀ c ∈ (hourPartition ts.toInt).toList, c.isDigit = true) ∧
      (hourPartition ts.toInt = hourPartition other.toInt ↔
        ts.toInt / hourNs = other.toInt / hourNs) ∧
      (hourPartition ts.toInt < hourPartition other.toInt ↔
        ts.toInt / hourNs < other.toInt / hourNs) := by
  have hi64 (x : Int64) : IsI64 x.toInt := ⟨x.le_toInt, x.toInt_lt⟩
  obtain ⟨hlen, hdigits, -⟩ := hourPartition_digits (hi64 ts)
  refine ⟨?_, hlen, hdigits, ⟨?_, hourPartition_congr⟩,
    hourPartition_lt_iff (hi64 ts) (hi64 other)⟩
  · rw [hourPartition_eq, civilFromDays_ofDay]
  · intro heq
    have hlt := mt (hourPartition_lt (hi64 ts) (hi64 other)) (by rw [heq]; exact lt_irrefl _)
    have hgt := mt (hourPartition_lt (hi64 other) (hi64 ts)) (by rw [heq]; exact lt_irrefl _)
    exact le_antisymm (not_lt.mp hgt) (not_lt.mp hlt)

example : hourPartition (-1) = "1969123123" := by decide +kernel

end TimeLake.Rows
