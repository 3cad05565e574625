import ColumnarEngine.Found.Calendar
import ColumnarEngine.Types.Timestamp

/-!
# Dates agree with the calendar

`number c` is the number of days from 1970-01-01 to the date `c`, counted month by month in
`Found.Calendar`. The engine computes it with years that start in March: a date is `doy` days into
year `yoe` of an era of 400 years, and `marchDays` says that this is the same day. `ofCivil` adds
the three up (`ofCivil_eq`); `civil` takes them apart again (`civil_number`), each quotient being
recovered from the day with constants that correct for leap years.
-/

namespace ColumnarEngine.Date

open Found

/-! ## Day numbers -/

/-- 1970-01-01. -/
def epoch : CivilDate := ⟨1970, 1, 1, by decide, by decide, by decide, by decide⟩

/-- The days from 1970-01-01 to a date. -/
def number (c : CivilDate) : ℤ := c.dayCount - epoch.dayCount

/-- The years that four digits can write. -/
def InRange (n : ℤ) : Prop := ∃ c : CivilDate, c.year ≤ 9999 ∧ number c = n

theorem dayCount_epoch : epoch.dayCount = 719528 := by
  have hcount := CivilDate.dayCount_of_newYear (c := epoch) rfl rfl
  have hdays := daysBeforeYear_eq epoch.year
  have hyear : epoch.year = 1970 := rfl
  omega

theorem number_eq (c : CivilDate) : number c = c.dayCount - 719528 := by
  rw [number, dayCount_epoch, Nat.cast_ofNat]

theorem number_le_number {c c' : CivilDate} : number c ≤ number c' ↔ c.dayCount ≤ c'.dayCount := by
  rw [number_eq, number_eq]
  omega

theorem number_injective : Function.Injective number := by
  intro c c' h
  rw [number_eq, number_eq] at h
  exact CivilDate.dayCount_injective (by omega)

/-- Dates of four-digit years, as days since 0000-01-01. -/
theorem dayCount_lt_of_year_le {c : CivilDate} (h : c.year ≤ 9999) : c.dayCount < 3652425 := by
  have hlt := c.dayCount_lt_year
  have hyear := daysBeforeYear_eq (c.year + 1)
  omega

/-! ## Machine integers -/

theorem toInt32_eq_self {n : ℤ} (hlo : -2 ^ 31 ≤ n) (hhi : n < 2 ^ 31) : toInt32 n = n :=
  wrap_eq_self ⟨by omega, by omega⟩

theorem toUnsigned_eq_self {n : ℤ} (hlo : 0 ≤ n) (hhi : n < 2 ^ 32) : toUnsigned n = n :=
  Int.emod_eq_of_lt hlo hhi

/-! ## Years that start in March -/

/-- The year whose March is the last one before the date. -/
def marchYear (c : CivilDate) : ℤ := if (c.month : ℤ) ≤ 2 then (c.year : ℤ) - 1 else c.year

/-- Months since March. -/
def marchMonth (c : CivilDate) : ℤ := c.month + if 2 < (c.month : ℤ) then -3 else 9

/-- Days since the first of March. -/
def marchDay (c : CivilDate) : ℤ := (153 * marchMonth c + 2) / 5 + c.day - 1

/-- Counting in years that start on 0000-03-01 gives the same day. -/
theorem marchDays (c : CivilDate) :
    (c.dayCount : ℤ) - 60 = 365 * marchYear c + marchYear c / 4 - marchYear c / 100 +
      marchYear c / 400 + marchDay c := by
  have hday := c.day_pos
  rcases Nat.lt_or_ge 2 c.month with hmonth | hmonth
  · have hyear := daysBeforeYear_add_leapDay c.year
    have hbefore := daysBeforeMonth_eq c.year hmonth (c.month_le.trans (by omega))
    have hy : marchYear c = c.year := if_neg (by omega)
    have hm : marchMonth c = c.month - 3 := by rw [marchMonth, if_pos (by omega)]; ring
    rw [marchDay, hm, hy, CivilDate.dayCount, hbefore]
    omega
  · have hyear := daysBeforeYear_eq c.year
    have hy : marchYear c = c.year - 1 := if_pos (by omega)
    have hm : marchMonth c = c.month + 9 := by rw [marchMonth, if_neg (by omega)]
    have hbefore : daysBeforeMonth c.year c.month = 31 * (c.month - 1) := by
      have hpos := c.month_pos
      rcases (by omega : c.month = 1 ∨ c.month = 2) with hone | htwo
      · rw [hone]; rfl
      · rw [htwo]; rfl
    have hpos := c.month_pos
    rw [marchDay, hm, hy, CivilDate.dayCount, hbefore]
    omega

/-- The month is recovered from the months since March. -/
theorem month_of_marchMonth (c : CivilDate) :
    marchMonth c + (if marchMonth c < 10 then 3 else -9) = c.month := by
  have hpos := c.month_pos
  have hle := c.month_le
  unfold marchMonth
  split_ifs <;> omega

/-- The year is recovered from the year that starts in March. -/
theorem year_of_marchYear (c : CivilDate) :
    (if (c.month : ℤ) ≤ 2 then marchYear c + 1 else marchYear c) = c.year := by
  unfold marchYear
  split_ifs <;> omega

/-- The day of the month is recovered from the day of the year. -/
theorem day_of_marchDay (c : CivilDate) :
    marchDay c - (153 * marchMonth c + 2) / 5 + 1 = c.day := by
  unfold marchDay
  ring

theorem marchMonth_bounds (c : CivilDate) : 0 ≤ marchMonth c ∧ marchMonth c ≤ 11 := by
  have hpos := c.month_pos
  have hle := c.month_le
  unfold marchMonth
  split_ifs <;> omega

theorem marchDay_nonneg (c : CivilDate) : 0 ≤ marchDay c := by
  have hmonth := marchMonth_bounds c
  have hday := c.day_pos
  unfold marchDay
  omega

/-- A day lies before the next month. -/
theorem marchDay_lt_month (c : CivilDate) : marchDay c < (153 * (marchMonth c + 1) + 2) / 5 := by
  have hpos := c.month_pos
  have hle := c.month_le
  have hday : c.day ≤ if c.month = 2 then 29
      else if c.month = 4 ∨ c.month = 6 ∨ c.month = 9 ∨ c.month = 11 then 30 else 31 := by
    apply c.day_le.trans
    unfold monthLength
    split_ifs <;> omega
  unfold marchDay marchMonth
  generalize c.month = m at *
  interval_cases m <;> simp at hday ⊢ <;> omega

/-- A day lies before the next first of March. -/
theorem marchDay_lt_year (c : CivilDate) :
    marchDay c < 365 + ((marchYear c + 1) / 4 - marchYear c / 4) -
      ((marchYear c + 1) / 100 - marchYear c / 100) +
      ((marchYear c + 1) / 400 - marchYear c / 400) := by
  have hmonth := marchMonth_bounds c
  have hlt := marchDay_lt_month c
  by_cases hfeb : c.month = 2
  · have hm : marchMonth c = 11 := by simp [marchMonth, hfeb]
    have hy : marchYear c = c.year - 1 := by simp [marchYear, hfeb]
    have hday := c.day_le
    rw [hfeb, monthLength, if_pos rfl] at hday
    rw [marchDay, hm, hy]
    by_cases hleap : IsLeap c.year
    · rw [if_pos hleap] at hday
      unfold IsLeap at hleap
      omega
    · rw [if_neg hleap] at hday
      omega
  · have hm : marchMonth c ≤ 10 := by
      have hpos := c.month_pos
      have hle := c.month_le
      unfold marchMonth
      split_ifs <;> omega
    omega

/-- The days of an era before a year and a day of it. -/
def eraDay (r doy : ℤ) : ℤ := 365 * r + r / 4 - r / 100 + doy

/-- The day in its era of 400 years. -/
theorem eraDays (c : CivilDate) :
    (c.dayCount : ℤ) - 60 =
      146097 * (marchYear c / 400) + eraDay (marchYear c % 400) (marchDay c) := by
  have hdays := marchDays c
  have hfour : marchYear c / 4 = 100 * (marchYear c / 400) + marchYear c % 400 / 4 := by omega
  have hcentury : marchYear c / 100 = 4 * (marchYear c / 400) + marchYear c % 400 / 100 := by omega
  unfold eraDay
  omega

/-- The next first of March, seen from the era. -/
theorem marchDay_lt_era (c : CivilDate) :
    marchDay c < 365 + ((marchYear c % 400 + 1) / 4 - marchYear c % 400 / 4) -
      ((marchYear c % 400 + 1) / 100 - marchYear c % 400 / 100) +
      (marchYear c % 400 + 1) / 400 := by
  have hlt := marchDay_lt_year c
  obtain ⟨e, he⟩ : ∃ e, e = marchYear c / 400 := ⟨_, rfl⟩
  obtain ⟨r, hr⟩ : ∃ r, r = marchYear c % 400 := ⟨_, rfl⟩
  have hyear : marchYear c = 400 * e + r := by omega
  have hfour : (400 * e + r + 1) / 4 - (400 * e + r) / 4 = (r + 1) / 4 - r / 4 := by omega
  have hcentury : (400 * e + r + 1) / 100 - (400 * e + r) / 100 = (r + 1) / 100 - r / 100 := by
    omega
  have hera : (400 * e + r + 1) / 400 - (400 * e + r) / 400 = (r + 1) / 400 - r / 400 := by omega
  rw [hyear, hfour, hcentury, hera] at hlt
  rw [← hr]
  omega

/-- An era has 146097 days. -/
theorem eraDay_bounds {r doy : ℤ} (hr : 0 ≤ r) (hr' : r < 400) (hdoy : 0 ≤ doy)
    (hdoy' : doy < 365 + ((r + 1) / 4 - r / 4) - ((r + 1) / 100 - r / 100) + (r + 1) / 400) :
    0 ≤ eraDay r doy ∧ eraDay r doy < 146097 := by
  unfold eraDay
  constructor
  · omega
  · omega

/-! ## Dates to days -/

/-- `ofCivil` counts the days. -/
theorem ofCivil_eq {c : CivilDate} (h : c.year ≤ 9999) :
    ofCivil c.year c.month c.day = number c := by
  have hdays := eraDays c
  have hcount := dayCount_lt_of_year_le h
  have hnonneg := marchDay_nonneg c
  have hmonth := marchMonth_bounds c
  have hbounds := eraDay_bounds (by omega) (by omega) hnonneg (marchDay_lt_era c)
  have hdoylt := marchDay_lt_month c
  have hera := tdiv_shift_eq_ediv (marchYear c) (show (0 : ℤ) < 400 by norm_num)
  have hdoy : (153 * marchMonth c + 2).tdiv 5 + c.day - 1 = marchDay c := by
    rw [Int.tdiv_eq_ediv_of_nonneg (by omega), marchDay]
  have hunfold : ofCivil c.year c.month c.day =
      let era := (if 0 ≤ marchYear c then marchYear c else marchYear c - (400 - 1)).tdiv 400
      let yoe := toUnsigned (marchYear c - era * 400)
      let doy := toUnsigned ((153 * marchMonth c + 2).tdiv 5 + c.day - 1)
      let doe := toUnsigned (yoe * 365 + yoe / 4 - yoe / 100 + doy)
      toInt32 (era * 146097 + toInt32 doe - 719468) := rfl
  have hyoe : toUnsigned (marchYear c - marchYear c / 400 * 400) = marchYear c % 400 := by
    rw [toUnsigned_eq_self (by omega) (by omega)]
    omega
  obtain ⟨doe, hdoe⟩ : ∃ doe, doe = eraDay (marchYear c % 400) (marchDay c) := ⟨_, rfl⟩
  have hera' : marchYear c % 400 * 365 + marchYear c % 400 / 4 - marchYear c % 400 / 100 +
      marchDay c = doe := by rw [hdoe, eraDay, Int.mul_comm]
  rw [← hdoe] at hdays hbounds
  rw [number_eq, hunfold, hera, hdoy]
  dsimp only
  rw [hyoe, toUnsigned_eq_self hnonneg (by omega), hera',
    toUnsigned_eq_self (n := doe) (by omega) (by omega),
    toInt32_eq_self (n := doe) (by omega) (by omega), toInt32_eq_self (by omega) (by omega)]
  omega

/-! ## Days to dates -/

/-- Within an era split into centuries, leap cycles and years, the quotients that correct the day
count for leap days come out right. -/
theorem leapCorrection {c q s doy : ℤ} (hc : 0 ≤ c ∧ c ≤ 3) (hq : 0 ≤ q ∧ q ≤ 24)
    (hs : 0 ≤ s ∧ s ≤ 3) (hdoy : 0 ≤ doy)
    (hlast : doy ≤ 364 ∨ doy = 365 ∧ s = 3 ∧ (q ≠ 24 ∨ c = 3)) {doe : ℤ}
    (hdoe : doe = 36524 * c + (1461 * q + (365 * s + doy))) :
    (doe - doe / 1460 + doe / 36524 - doe / 146096) / 365 = 100 * c + 4 * q + s := by
  -- The day within its century, and within its leap cycle.
  obtain ⟨x, hx⟩ : ∃ x, x = 1461 * q + (365 * s + doy) := ⟨_, rfl⟩
  obtain ⟨w, hw⟩ : ∃ w, w = 365 * s + doy := ⟨_, rfl⟩
  have hxbound : 0 ≤ x ∧ (x < 36524 ∨ x = 36524 ∧ c = 3) := by
    rcases hlast with hlast | ⟨hlast, hthree, hq24 | hcthree⟩ <;> omega
  have hcenturies : doe / 36524 - doe / 146096 = c := by
    rw [← hx] at hdoe
    clear hx hw hlast hdoy hq hs
    rcases hxbound with ⟨hpos, hlt | ⟨heq, hthree⟩⟩
    · have hquot : doe / 36524 = c := by omega
      have hzero : doe / 146096 = 0 := by omega
      omega
    · subst hthree heq
      omega
  obtain ⟨t, ht⟩ : ∃ t, t = (24 * c + q + w) / 1460 := ⟨_, rfl⟩
  have hcycles : doe / 1460 = 25 * c + q + t := by
    rw [← hw] at hdoe
    clear hlast hxbound hcenturies hw hx
    omega
  have htbound : 0 ≤ doy - t ∧ doy - t ≤ 364 := by
    clear hcenturies hcycles hxbound hx hdoe
    rcases hlast with hlast | ⟨hlast, hthree, -⟩ <;> omega
  rw [Int.ediv_eq_iff_of_pos (by norm_num)]
  clear hlast hxbound ht hw hx
  omega

/-- The year of an era is recovered from the day of the era. -/
theorem yearOfEra {r doy doe : ℤ} (hr : 0 ≤ r) (hr' : r < 400) (hdoy : 0 ≤ doy)
    (hdoy' : doy < 365 + ((r + 1) / 4 - r / 4) - ((r + 1) / 100 - r / 100) + (r + 1) / 400)
    (hdoe : doe = 365 * r + r / 4 - r / 100 + doy) :
    (doe - doe / 1460 + doe / 36524 - doe / 146096) / 365 = r := by
  obtain ⟨c, q, s, hc, hq, hs, hdec⟩ : ∃ c q s : ℤ, (0 ≤ c ∧ c ≤ 3) ∧ (0 ≤ q ∧ q ≤ 24) ∧
      (0 ≤ s ∧ s ≤ 3) ∧ r = 100 * c + 4 * q + s :=
    ⟨r / 100, r % 100 / 4, r % 4, by omega, by omega, by omega, by omega⟩
  have hfour : r / 4 = 25 * c + q := by omega
  have hcentury : r / 100 = c := by omega
  have hlast : doy ≤ 364 ∨ doy = 365 ∧ s = 3 ∧ (q ≠ 24 ∨ c = 3) := by omega
  rw [leapCorrection hc hq hs hdoy hlast (by omega), hdec]



/-- The era and the day of the era are recovered from the day. -/
theorem eraOfDay {days e doe : ℤ} (h : days = 146097 * e + doe) (hdoe : 0 ≤ doe ∧ doe < 146097) :
    days / 146097 = e ∧ days - days / 146097 * 146097 = doe := by
  have hquot : days / 146097 = e := by omega
  exact ⟨hquot, by omega⟩

/-- The corrected day of the era is an `unsigned`. -/
theorem corrected_bounds {doe : ℤ} (hdoe : 0 ≤ doe ∧ doe < 146097) :
    0 ≤ doe - doe / 1460 + doe / 36524 - doe / 146096 ∧
      doe - doe / 1460 + doe / 36524 - doe / 146096 < 2 ^ 32 := by
  constructor
  · omega
  · omega

/-- The month and the day of the month are recovered from the day of the year. -/
theorem monthOfYear (c : CivilDate) : (5 * marchDay c + 2) / 153 = marchMonth c := by
  have hlt := marchDay_lt_month c
  have hday := c.day_pos
  rw [Int.ediv_eq_iff_of_pos (by norm_num)]
  unfold marchDay at hlt ⊢
  omega

/-- `civil` inverts `number`. -/
theorem civil_number {c : CivilDate} (h : c.year ≤ 9999) :
    civil (number c) = ((c.year : ℤ), (c.month : ℤ), (c.day : ℤ)) := by
  have heras := eraDays c
  have hcount := dayCount_lt_of_year_le h
  have hnonneg := marchDay_nonneg c
  have hdoylt := marchDay_lt_month c
  have hltera := marchDay_lt_era c
  have hmonth := marchMonth_bounds c
  have hmp := monthOfYear c
  -- The day since 0000-03-01, the year of its era and the day of its era.
  obtain ⟨days, hd⟩ : ∃ days : ℤ, days = c.dayCount - 60 := ⟨_, rfl⟩
  obtain ⟨r, hr⟩ : ∃ r, r = marchYear c % 400 := ⟨_, rfl⟩
  rw [← hr] at heras hltera
  obtain ⟨doe, hdoe⟩ : ∃ doe, doe = eraDay r (marchDay c) := ⟨_, rfl⟩
  have hdoebounds := eraDay_bounds (by omega) (by omega) hnonneg hltera
  rw [← hdoe] at heras hdoebounds
  obtain ⟨hera, hdoe'⟩ := eraOfDay (hd.trans heras) hdoebounds
  have hfloor := tdiv_shift_eq_ediv days (show (0 : ℤ) < 146097 by norm_num)
  have hyoe := yearOfEra (by omega) (by omega) hnonneg hltera hdoe
  have hunfold : ∀ n, civil n =
      let days := toInt32 (n + 719468)
      let era := (if 0 ≤ days then days else days - (146097 - 1)).tdiv 146097
      let doe := toUnsigned (days - era * 146097)
      let yoe := toUnsigned (doe - doe / 1460 + doe / 36524 - doe / 146096) / 365
      let doy := toUnsigned (doe - (365 * yoe + yoe / 4 - yoe / 100))
      let mp := toUnsigned (5 * doy + 2) / 153
      let d := toUnsigned (doy - toUnsigned (153 * mp + 2) / 5 + 1)
      let m := toUnsigned (mp + (if mp < 10 then 3 else -9))
      (if m ≤ 2 then toInt32 yoe + era * 400 + 1 else toInt32 yoe + era * 400, m, d) :=
    fun _ => rfl
  have hstart : toInt32 (number c + 719468) = days := by
    rw [number_eq, toInt32_eq_self (by omega) (by omega)]
    omega
  have hdoy : doe - (365 * r + r / 4 - r / 100) = marchDay c := by
    rw [hdoe, eraDay]
    omega
  have hcorrected := corrected_bounds hdoebounds
  have hmonth' := month_of_marchMonth c
  rw [hunfold, hstart]
  dsimp only
  rw [hfloor, hdoe', toUnsigned_eq_self hdoebounds.1 (by omega),
    toUnsigned_eq_self hcorrected.1 hcorrected.2, hyoe, hdoy,
    toUnsigned_eq_self hnonneg (by omega), toUnsigned_eq_self (n := 5 * marchDay c + 2) (by omega)
      (by omega), hmp, toUnsigned_eq_self (n := 153 * marchMonth c + 2) (by omega) (by omega),
    hmonth', toUnsigned_eq_self (n := (c.month : ℤ)) (by omega) (by have := c.month_le; omega),
    toInt32_eq_self (n := r) (by omega) (by omega)]
  have hday := c.day_le.trans (CivilDate.monthLength_le _ _)
  rw [day_of_marchDay, toUnsigned_eq_self (by omega) (by omega)]
  have hyear : r + days / 146097 * 400 = marchYear c := by
    rw [hera, hr, Int.mul_comm]
    exact Int.emod_add_mul_ediv _ _
  rw [hyear, year_of_marchYear]

end ColumnarEngine.Date
