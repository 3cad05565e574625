import Mathlib

/-!
# The proleptic Gregorian calendar, by counting

A `CivilDate` is a year, month and day that exist. `dayCount` counts the days since 0000-01-01 from
the lengths of the years and months, and nothing else: it is the reference that day arithmetic is
compared with. Every count is the count of exactly one date (`exists_dayCount`,
`dayCount_injective`), and counts are ordered as dates are.
-/

namespace ColumnarEngine.Found

/-! ## Years and months -/

/-- Leap years. -/
def IsLeap (y : ℕ) : Prop := y % 4 = 0 ∧ (y % 100 ≠ 0 ∨ y % 400 = 0)

instance (y : ℕ) : Decidable (IsLeap y) := by unfold IsLeap; infer_instance

/-- The days of a year. -/
def yearLength (y : ℕ) : ℕ := if IsLeap y then 366 else 365

/-- The days of a month. -/
def monthLength (y m : ℕ) : ℕ :=
  if m = 2 then if IsLeap y then 29 else 28
  else if m = 4 ∨ m = 6 ∨ m = 9 ∨ m = 11 then 30 else 31

/-- The days from 0000-01-01 to the first day of a year. -/
def daysBeforeYear : ℕ → ℕ
  | 0 => 0
  | y + 1 => daysBeforeYear y + yearLength y

/-- The days of a year before a month. -/
def daysBeforeMonth (y : ℕ) : ℕ → ℕ
  | 0 => 0
  | 1 => 0
  | m + 2 => daysBeforeMonth y (m + 1) + monthLength y (m + 1)

theorem daysBeforeMonth_succ (y : ℕ) {m : ℕ} (hm : 1 ≤ m) :
    daysBeforeMonth y (m + 1) = daysBeforeMonth y m + monthLength y m := by
  obtain ⟨k, rfl⟩ := Nat.exists_eq_add_of_le' hm
  rfl

/-- The months make up the year. -/
theorem daysBeforeMonth_thirteen (y : ℕ) : daysBeforeMonth y 13 = yearLength y := by
  by_cases h : IsLeap y
  · simp [daysBeforeMonth, monthLength, yearLength, h]
  · simp [daysBeforeMonth, monthLength, yearLength, h]

theorem daysBeforeYear_mono {y y' : ℕ} (h : y ≤ y') : daysBeforeYear y ≤ daysBeforeYear y' := by
  induction h with
  | refl => exact le_rfl
  | step _ ih => exact ih.trans (Nat.le_add_right _ _)

theorem daysBeforeMonth_mono (y : ℕ) {m m' : ℕ} (hm : 1 ≤ m) (h : m ≤ m') :
    daysBeforeMonth y m ≤ daysBeforeMonth y m' := by
  induction h with
  | refl => exact le_rfl
  | step hle ih =>
      rw [daysBeforeMonth_succ y (hm.trans hle)]
      exact ih.trans (Nat.le_add_right _ _)

/-- The leap day that a year may have. -/
def leapDay (y : ℕ) : ℕ := if IsLeap y then 1 else 0

theorem yearLength_eq (y : ℕ) : yearLength y = 365 + leapDay y := by
  unfold yearLength leapDay
  split_ifs <;> rfl

/-- A year in four is a leap year, but only one in four centuries. -/
theorem leapDay_eq (y : ℕ) :
    leapDay y + (if y % 100 = 0 then 1 else 0) =
      (if y % 4 = 0 then 1 else 0) + if y % 400 = 0 then 1 else 0 := by
  have hcentury : y % 100 = 0 → y % 4 = 0 := by omega
  have hcycle : y % 400 = 0 → y % 100 = 0 := by omega
  unfold leapDay IsLeap
  by_cases hcycle' : y % 400 = 0
  · simp [hcycle', hcycle, hcentury]
  · by_cases hcentury' : y % 100 = 0
    · simp [hcycle', hcentury', hcentury]
    · simp [hcycle', hcentury']

/-- Rounded up, a quotient grows behind a multiple. -/
theorem ceilDiv_succ (y : ℕ) {k n : ℕ} (hn : n = k + 1) :
    (y + 1 + k) / n = (y + k) / n + if y % n = 0 then 1 else 0 := by
  subst hn
  have hdvd : k + 1 ∣ y + k + 1 ↔ y % (k + 1) = 0 := by
    rw [Nat.add_assoc, Nat.dvd_add_self_right, Nat.dvd_iff_mod_eq_zero]
  rw [Nat.add_right_comm, Nat.succ_div, if_congr hdvd rfl rfl]

/-- Rounding up adds one except at a multiple. -/
theorem ceilDiv_eq (y : ℕ) {k n : ℕ} (hn : n = k + 1) :
    (y + k) / n + (if y % n = 0 then 1 else 0) = y / n + 1 := by
  rw [← ceilDiv_succ y hn, Nat.add_assoc, Nat.add_comm 1 k, ← hn]
  apply Nat.add_div_right
  omega

/-- The years before a year have their leap days, which are counted in quotients rounded up. -/
theorem daysBeforeYear_eq (y : ℕ) :
    daysBeforeYear y + (y + 99) / 100 = 365 * y + (y + 3) / 4 + (y + 399) / 400 := by
  induction y with
  | zero => rfl
  | succ y ih =>
      have hfour : (y + 1 + 3) / 4 = _ := ceilDiv_succ y rfl
      have hcentury : (y + 1 + 99) / 100 = _ := ceilDiv_succ y rfl
      have hcycle : (y + 1 + 399) / 400 = _ := ceilDiv_succ y rfl
      have hleap := leapDay_eq y
      rw [daysBeforeYear, yearLength_eq, hfour, hcentury, hcycle]
      linarith

/-- Counting the leap day to the years before leaves plain quotients. -/
theorem daysBeforeYear_add_leapDay (y : ℕ) :
    daysBeforeYear y + leapDay y + y / 100 = 365 * y + y / 4 + y / 400 + 1 := by
  have hyear := daysBeforeYear_eq y
  have hleap := leapDay_eq y
  have hfour := ceilDiv_eq y (rfl : 4 = 3 + 1)
  have hcentury := ceilDiv_eq y (rfl : 100 = 99 + 1)
  have hcycle := ceilDiv_eq y (rfl : 400 = 399 + 1)
  linarith

/-- From March on the months before follow a linear rule. -/
theorem daysBeforeMonth_eq (y : ℕ) {m : ℕ} (hm : 3 ≤ m) (hm' : m ≤ 13) :
    daysBeforeMonth y m = 59 + leapDay y + (153 * (m - 3) + 2) / 5 := by
  induction m, hm using Nat.le_induction with
  | base =>
      by_cases hleap : IsLeap y
      · simp [daysBeforeMonth, monthLength, leapDay, hleap]
      · simp [daysBeforeMonth, monthLength, leapDay, hleap]
  | succ m hm ih =>
      rw [daysBeforeMonth_succ y (by omega), ih (by omega)]
      have htwo : m ≠ 2 := by omega
      rw [monthLength, if_neg htwo]
      split_ifs with hshort
      · omega
      · have hlong : m = 3 ∨ m = 5 ∨ m = 7 ∨ m = 8 ∨ m = 10 ∨ m = 12 := by omega
        omega

/-! ## Dates -/

/-- A date that exists. -/
@[ext] structure CivilDate where
  year : ℕ
  month : ℕ
  day : ℕ
  month_pos : 1 ≤ month
  month_le : month ≤ 12
  day_pos : 1 ≤ day
  day_le : day ≤ monthLength year month
  deriving DecidableEq

namespace CivilDate

/-- The days from 0000-01-01 to the date. -/
def dayCount (c : CivilDate) : ℕ :=
  daysBeforeYear c.year + daysBeforeMonth c.year c.month + (c.day - 1)

theorem monthLength_le (y m : ℕ) : monthLength y m ≤ 31 := by
  unfold monthLength
  split_ifs <;> omega

theorem monthLength_pos (y m : ℕ) : 1 ≤ monthLength y m := by
  unfold monthLength
  split_ifs <;> omega

/-- The first day of the month. -/
def firstOfMonth (c : CivilDate) : CivilDate :=
  { c with day := 1, day_pos := le_rfl, day_le := monthLength_pos _ _ }

/-- The day after. -/
def next (c : CivilDate) : CivilDate :=
  if hday : c.day < monthLength c.year c.month then
    { c with day := c.day + 1, day_pos := by omega, day_le := hday }
  else if hmonth : c.month < 12 then
    ⟨c.year, c.month + 1, 1, by omega, by omega, le_rfl, monthLength_pos _ _⟩
  else ⟨c.year + 1, 1, 1, le_rfl, by omega, le_rfl, monthLength_pos _ _⟩

/-- The day after is in the same month or the first of the next one. -/
theorem next_cases (c : CivilDate) :
    (c.next.year = c.year ∧ c.next.month = c.month ∧ c.next.day = c.day + 1) ∨
      (c.next.year = c.year ∧ c.next.month = c.month + 1 ∧ c.next.day = 1) ∨
      (c.next.year = c.year + 1 ∧ c.next.month = 1 ∧ c.next.day = 1) := by
  unfold next
  split_ifs with hday hmonth
  · exact .inl ⟨rfl, rfl, rfl⟩
  · exact .inr (.inl ⟨rfl, rfl, rfl⟩)
  · exact .inr (.inr ⟨rfl, rfl, rfl⟩)

/-- The day after is one day later. -/
theorem dayCount_next (c : CivilDate) : c.next.dayCount = c.dayCount + 1 := by
  have hpos := c.day_pos
  have hle := c.day_le
  unfold next
  split_ifs with hday hmonth
  · simp only [dayCount]
    omega
  · have hsucc := daysBeforeMonth_succ c.year c.month_pos
    simp only [dayCount, hsucc]
    omega
  · have htwelve : c.month = 12 := by have := c.month_le; omega
    have hsucc := daysBeforeMonth_succ c.year c.month_pos
    have hjanuary : daysBeforeMonth (c.year + 1) 1 = 0 := rfl
    rw [htwelve, daysBeforeMonth_thirteen] at hsucc
    rw [htwelve] at hday hle
    simp only [dayCount, daysBeforeYear, htwelve, hjanuary]
    omega

/-- Every count of days is that of a date. -/
theorem exists_dayCount (n : ℕ) : ∃ c : CivilDate, c.dayCount = n := by
  induction n with
  | zero => exact ⟨⟨0, 1, 1, by decide, by decide, by decide, by decide⟩, rfl⟩
  | succ n ih =>
      obtain ⟨c, rfl⟩ := ih
      exact ⟨c.next, c.dayCount_next⟩

/-- A date lies in its month. -/
theorem dayCount_lt_month (c : CivilDate) :
    c.dayCount < daysBeforeYear c.year + daysBeforeMonth c.year (c.month + 1) := by
  have hpos := c.day_pos
  have hle := c.day_le
  rw [daysBeforeMonth_succ c.year c.month_pos, dayCount]
  omega

/-- A date lies in its year. -/
theorem dayCount_lt_year (c : CivilDate) : c.dayCount < daysBeforeYear (c.year + 1) := by
  have hmonth := daysBeforeMonth_mono c.year (by omega) (Nat.succ_le_succ c.month_le)
  rw [daysBeforeMonth_thirteen] at hmonth
  exact c.dayCount_lt_month.trans_le (Nat.add_le_add_left hmonth _)

variable {c c' : CivilDate}

/-- Dates of earlier years are earlier. -/
theorem dayCount_lt_of_year (h : c.year < c'.year) : c.dayCount < c'.dayCount := by
  have hle : daysBeforeYear (c.year + 1) ≤ daysBeforeYear c'.year := daysBeforeYear_mono h
  have hlt := c.dayCount_lt_year
  have hstart : daysBeforeYear c'.year ≤ c'.dayCount := by
    rw [dayCount, Nat.add_assoc]
    exact Nat.le_add_right _ _
  omega

/-- Dates of earlier months of one year are earlier. -/
theorem dayCount_lt_of_month (hyear : c.year = c'.year) (h : c.month < c'.month) :
    c.dayCount < c'.dayCount := by
  have hle : daysBeforeMonth c.year (c.month + 1) ≤ daysBeforeMonth c.year c'.month :=
    daysBeforeMonth_mono c.year (by omega) h
  have hlt := c.dayCount_lt_month
  have hstart : daysBeforeYear c'.year + daysBeforeMonth c'.year c'.month ≤ c'.dayCount :=
    Nat.le_add_right _ _
  rw [← hyear] at hstart
  omega

/-- A later or equal count is in a later or equal month. -/
theorem month_le_of_dayCount_le (h : c.dayCount ≤ c'.dayCount) :
    c.year < c'.year ∨ c.year = c'.year ∧ c.month ≤ c'.month := by
  rcases Nat.lt_trichotomy c.year c'.year with hlt | heq | hgt
  · exact Or.inl hlt
  · refine Or.inr ⟨heq, ?_⟩
    by_contra hmonth
    exact absurd (dayCount_lt_of_month heq.symm (not_le.mp hmonth)) (not_lt.mpr h)
  · exact absurd (dayCount_lt_of_year hgt) (not_lt.mpr h)

/-- The count determines the date. -/
theorem dayCount_injective : Function.Injective dayCount := by
  intro c c' h
  have hle := month_le_of_dayCount_le h.le
  have hge := month_le_of_dayCount_le h.ge
  have hyear : c.year = c'.year := by omega
  have hmonth : c.month = c'.month := by omega
  have hpos := c.day_pos
  have hpos' := c'.day_pos
  rw [dayCount, dayCount, hyear, hmonth] at h
  exact CivilDate.ext hyear hmonth (by omega)

/-- New Year's Day. -/
theorem dayCount_of_newYear {c : CivilDate} (hmonth : c.month = 1) (hday : c.day = 1) :
    c.dayCount = daysBeforeYear c.year := by
  rw [dayCount, hmonth, hday]
  rfl

/-- The first of the month is not later. -/
theorem firstOfMonth_le (c : CivilDate) : c.firstOfMonth.dayCount ≤ c.dayCount := by
  simp only [dayCount, firstOfMonth]
  omega

/-- Firsts of months come in the order of the dates. -/
theorem firstOfMonth_mono (h : c.dayCount ≤ c'.dayCount) :
    c.firstOfMonth.dayCount ≤ c'.firstOfMonth.dayCount := by
  rcases month_le_of_dayCount_le h with hyear | ⟨hyear, hmonth⟩
  · have hyears : c.firstOfMonth.year < c'.firstOfMonth.year := hyear
    exact (dayCount_lt_of_year hyears).le
  · have := daysBeforeMonth_mono c'.year c.month_pos hmonth
    simp only [dayCount, firstOfMonth, hyear]
    omega

end CivilDate

/-! ## Division towards zero -/

/-- Shifting a negative dividend makes division towards zero round down. -/
theorem tdiv_shift_eq_ediv (a : ℤ) {b : ℤ} (hb : 0 < b) :
    (if 0 ≤ a then a else a - (b - 1)).tdiv b = a / b := by
  split_ifs with ha
  · exact Int.tdiv_eq_ediv_of_nonneg ha
  · have hneg : a - (b - 1) = -(b - 1 - a) := by ring
    rw [hneg, Int.neg_tdiv, Int.tdiv_eq_ediv_of_nonneg (by omega)]
    have hdiv := Int.mul_ediv_add_emod a b
    have hnonneg := Int.emod_nonneg a hb.ne'
    have hlt := Int.emod_lt_of_pos a hb
    have hquot : (b - 1 - a) / b = -(a / b) := by
      rw [Int.ediv_eq_iff_of_pos hb]
      constructor <;> nlinarith
    rw [hquot, neg_neg]

end ColumnarEngine.Found
