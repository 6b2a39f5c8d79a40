import TimeLake.Rows.Flush
import TimeLake.Library.Int64

/-!
The order of the hour partitions. `civil_from_days` counts years from March,
in eras of 400 years; within an era the year of a day is monotone in the day,
and its first day never lies after the day. So the calendar date, read as one
decimal number, grows with the day, and between the years 1000 and 9999, which
hold all 64-bit timestamps, the ten characters of a partition compare as the
hours they name.
-/

namespace TimeLake.Rows

open TimeLake.Library

section Era

/-- What `civil_from_days` divides by 365 for the year of the era. -/
def leapless (doe : Int) : Int := doe - doe / 1460 + doe / 36524 - doe / 146096

/-- The first day of a year of the era, which begins in March. -/
def yearStart (y : Int) : Int := 365 * y + y / 4 - y / 100

theorem leapless_mono {a b : Int} (hab : a ≤ b) : leapless a ≤ leapless b := by
  unfold leapless
  omega

private theorem leapless_yearStart :
    ∀ y ∈ List.range 400, 365 * (y : Int) ≤ leapless (yearStart y) ∧
      leapless (yearStart (y + 1) - 1) < 365 * ((y : Int) + 1) := by
  decide +kernel

theorem yearStart_leapless {y : Int} (h0 : 0 ≤ y) (h400 : y < 400) :
    365 * y ≤ leapless (yearStart y) ∧ leapless (yearStart (y + 1) - 1) < 365 * (y + 1) := by
  obtain ⟨n, rfl⟩ := Int.eq_ofNat_of_zero_le h0
  exact leapless_yearStart n (List.mem_range.mpr (by omega))

/-- The day of the year is one of 366. -/
theorem yearStart_le (doe : Int) (h0 : 0 ≤ doe) (hera : doe < 146097) :
    let y := leapless doe / 365
    0 ≤ y ∧ y < 400 ∧ yearStart y ≤ doe ∧ doe ≤ yearStart y + 365 := by
  intro y
  have hy0 : 0 ≤ y := by
    unfold y leapless
    omega
  have hy400 : y < 400 := by
    unfold y leapless
    omega
  have hlo : 365 * y ≤ leapless doe := by omega
  have hhi : leapless doe < 365 * (y + 1) := by omega
  clear_value y
  refine ⟨hy0, hy400, ?_, ?_⟩
  · by_contra hlt
    have hprev := yearStart_leapless (y := y - 1)
    have hpos : 0 < y := by
      by_contra hzero
      obtain rfl : y = 0 := by omega
      unfold yearStart at hlt
      omega
    have hbound := (hprev (by omega) (by omega)).2
    rw [Int.sub_add_cancel] at hbound
    have hmono := leapless_mono (a := doe) (b := yearStart y - 1) (by omega)
    omega
  · by_contra hlt
    by_cases hlast : y = 399
    · subst hlast
      unfold yearStart at hlt
      omega
    · have hnext := (yearStart_leapless (y := y + 1) (by omega) (by omega)).1
      have hmono := leapless_mono (a := yearStart (y + 1)) (b := doe) (by
        unfold yearStart at hlt ⊢
        omega)
      omega

end Era

section Date

/-- A date as the number its eight digits denote. -/
def dateNumber (date : Int × Nat × Nat) : Int := date.1 * 10000 + date.2.1 * 100 + date.2.2

/-- The year that begins in March and the day in it. -/
def marchYear (days : Int) : Int × Int :=
  let z := days + 719468
  let yoe := leapless (z % 146097) / 365
  (yoe + z / 146097 * 400, z % 146097 - yearStart yoe)

/-- The date of a day of a year that begins in March. -/
def marchDate (y doy : Int) : Int × Nat × Nat :=
  let mp := (5 * doy + 2) / 153
  let d := (doy - (153 * mp + 2) / 5 + 1).toNat
  let m := (if mp < 10 then mp + 3 else mp - 9).toNat
  (if m ≤ 2 then y + 1 else y, m, d)

theorem civilFromDays_eq (days : Int) :
    civilFromDays days = marchDate (marchYear days).1 (marchYear days).2 := rfl

theorem marchYear_doy (days : Int) : 0 ≤ (marchYear days).2 ∧ (marchYear days).2 ≤ 365 := by
  have h := yearStart_le ((days + 719468) % 146097) (by omega) (by omega)
  unfold marchYear
  dsimp only at h ⊢
  omega

theorem marchYear_lt {a b : Int} (h : a < b) :
    (marchYear a).1 < (marchYear b).1 ∨
      ((marchYear a).1 = (marchYear b).1 ∧ (marchYear a).2 < (marchYear b).2) := by
  have ha := yearStart_le ((a + 719468) % 146097) (by omega) (by omega)
  have hb := yearStart_le ((b + 719468) % 146097) (by omega) (by omega)
  have hmono := leapless_mono (a := (a + 719468) % 146097) (b := (b + 719468) % 146097)
  unfold marchYear
  dsimp only at ha hb ⊢
  by_cases hera : (a + 719468) / 146097 = (b + 719468) / 146097
  · have hdoe : (a + 719468) % 146097 < (b + 719468) % 146097 := by omega
    have hle := hmono hdoe.le
    rw [hera]
    by_cases hyear : leapless ((a + 719468) % 146097) / 365 = leapless ((b + 719468) % 146097) / 365
    · right
      rw [hyear]
      omega
    · left
      omega
  · left
    omega

/-- The digits of a date stay in their places. -/
theorem marchDate_bounds {y doy : Int} (h0 : 0 ≤ doy) (h365 : doy ≤ 365) :
    y ≤ (marchDate y doy).1 ∧ (marchDate y doy).1 ≤ y + 1 ∧ (marchDate y doy).2.1 < 100 ∧
      (marchDate y doy).2.2 < 100 := by
  unfold marchDate
  dsimp only
  split <;> split <;> omega

theorem marchDate_lt {y y' doy doy' : Int} (h0 : 0 ≤ doy) (h365 : doy ≤ 365) (h0' : 0 ≤ doy')
    (h365' : doy' ≤ 365) (h : y < y' ∨ (y = y' ∧ doy < doy')) :
    dateNumber (marchDate y doy) < dateNumber (marchDate y' doy') := by
  unfold dateNumber marchDate
  dsimp only
  by_cases hmonth : (5 * doy + 2) / 153 = (5 * doy' + 2) / 153
  · rw [hmonth]
    generalize (5 * doy' + 2) / 153 = mp at hmonth ⊢
    split <;> split <;> omega
  · generalize hmp : (5 * doy + 2) / 153 = mp at hmonth ⊢
    generalize hmp' : (5 * doy' + 2) / 153 = mp' at hmonth ⊢
    have hday : doy - (153 * mp + 2) / 5 + 1 ≤ 31 := by omega
    have hday' : 1 ≤ doy' - (153 * mp' + 2) / 5 + 1 := by omega
    have horder : y < y' ∨ (y = y' ∧ mp < mp') := by omega
    split <;> split <;> split <;> split <;> omega

theorem dateNumber_lt {a b : Int} (h : a < b) :
    dateNumber (civilFromDays a) < dateNumber (civilFromDays b) := by
  have ha := marchYear_doy a
  have hb := marchYear_doy b
  rw [civilFromDays_eq, civilFromDays_eq]
  exact marchDate_lt ha.1 ha.2 hb.1 hb.2 (marchYear_lt h)

end Date

section Hour

def hourNs : Int := 3600000000000

/-- A partition depends on the hour alone. -/
theorem hourPartition_eq (ns : Int) :
    hourPartition ns = String.ofList
      (padInt 4 (civilFromDays (ns / hourNs / 24)).1 ++
        padNat 2 (civilFromDays (ns / hourNs / 24)).2.1 ++
        padNat 2 (civilFromDays (ns / hourNs / 24)).2.2 ++
        padNat 2 (ns / hourNs % 24).toNat) := by
  have hdays : ns / 1000000000 / 86400 = ns / hourNs / 24 := by
    unfold hourNs
    omega
  have hhours : ns / 1000000000 % 86400 / 3600 = ns / hourNs % 24 := by
    unfold hourNs
    omega
  unfold hourPartition
  dsimp only
  rw [hdays, hhours]

theorem hourPartition_congr {a b : Int} (h : a / hourNs = b / hourNs) :
    hourPartition a = hourPartition b := by
  rw [hourPartition_eq, hourPartition_eq, h]

/-- The years of the 64-bit timestamps have four digits. -/
theorem civilFromDays_year {ns : Int} (h : IsI64 ns) :
    1600 ≤ (civilFromDays (ns / hourNs / 24)).1 ∧ (civilFromDays (ns / hourNs / 24)).1 ≤ 2400 := by
  obtain ⟨hlo, hhi⟩ := h
  generalize hdays : ns / hourNs / 24 = days
  have hdays' : -106752 ≤ days ∧ days ≤ 106751 := by
    unfold hourNs at hdays
    omega
  have hdoy := marchYear_doy days
  have hbounds := marchDate_bounds (y := (marchYear days).1) hdoy.1 hdoy.2
  have hyear : 1600 ≤ (marchYear days).1 ∧ (marchYear days).1 ≤ 2399 := by
    have hyoe := yearStart_le ((days + 719468) % 146097) (by omega) (by omega)
    unfold marchYear
    dsimp only at hyoe ⊢
    omega
  rw [civilFromDays_eq]
  omega

def hourNumber (hour : Int) : Int := dateNumber (civilFromDays (hour / 24)) * 100 + hour % 24

theorem hourNumber_lt {a b : Int} (h : a < b) : hourNumber a < hourNumber b := by
  unfold hourNumber
  by_cases hday : a / 24 = b / 24
  · rw [hday]
    omega
  · have hlt := dateNumber_lt (a := a / 24) (b := b / 24) (by omega)
    omega

/-- The characters of a partition: ten digits, of the number of its hour. -/
theorem hourPartition_digits {ns : Int} (h : IsI64 ns) :
    (hourPartition ns).toList.length = 10 ∧ (∀ c ∈ (hourPartition ns).toList, c.isDigit = true) ∧
      (Nat.ofDigitChars 10 (hourPartition ns).toList 0 : Int) = hourNumber (ns / hourNs) := by
  have hyear := civilFromDays_year h
  have hdoy := marchYear_doy (ns / hourNs / 24)
  have hbounds := marchDate_bounds (y := (marchYear (ns / hourNs / 24)).1) hdoy.1 hdoy.2
  rw [hourPartition_eq, String.toList_ofList]
  unfold hourNumber dateNumber
  rw [← civilFromDays_eq] at hbounds
  have hhour : 0 ≤ ns / hourNs % 24 ∧ ns / hourNs % 24 < 24 := by omega
  generalize civilFromDays (ns / hourNs / 24) = date at hyear hbounds ⊢
  generalize ns / hourNs % 24 = hour at hhour ⊢
  obtain ⟨year, month, day⟩ := date
  dsimp only at hyear hbounds ⊢
  rw [padInt, if_neg (by omega)]
  refine ⟨?_, ?_, ?_⟩
  · simp only [List.length_append]
    rw [length_padNat (by decide) (by omega), length_padNat (by decide) (by omega),
      length_padNat (by decide) (by omega), length_padNat (by decide) (by omega)]
  · intro c hc
    simp only [List.mem_append] at hc
    rcases hc with ((hc | hc) | hc) | hc <;> exact padNat_isDigit hc
  · rw [Nat.ofDigitChars_append, Nat.ofDigitChars_eq_ofDigitChars_zero, padNat_value,
      length_padNat (by decide) (by omega), Nat.ofDigitChars_append,
      Nat.ofDigitChars_eq_ofDigitChars_zero, padNat_value, length_padNat (by decide) (by omega),
      Nat.ofDigitChars_append, Nat.ofDigitChars_eq_ofDigitChars_zero, padNat_value,
      length_padNat (by decide) (by omega), padNat_value]
    omega

theorem hourPartition_lt {a b : Int} (ha : IsI64 a) (hb : IsI64 b)
    (h : a / hourNs < b / hourNs) : hourPartition a < hourPartition b := by
  obtain ⟨hlen, hdigits, hvalue⟩ := hourPartition_digits ha
  obtain ⟨hlen', hdigits', hvalue'⟩ := hourPartition_digits hb
  have hlt := hourNumber_lt h
  rw [String.lt_iff_toList_lt]
  exact lex_of_ofDigitChars_lt _ _ (by rw [hlen, hlen']) hdigits hdigits' (by omega)

/-- The lexicographic order of the partitions is the order of the hours. -/
theorem hourPartition_lt_iff {a b : Int} (ha : IsI64 a) (hb : IsI64 b) :
    hourPartition a < hourPartition b ↔ a / hourNs < b / hourNs := by
  constructor
  · intro h
    by_contra hnot
    rcases (not_lt.mp hnot).lt_or_eq with hlt | heq
    · exact lt_asymm h (hourPartition_lt hb ha hlt)
    · rw [hourPartition_congr heq] at h
      exact lt_irrefl _ h
  · exact hourPartition_lt ha hb

end Hour

end TimeLake.Rows
