import ColumnarEngine.Types.DateCorrect

/-!
# Dates as text, and the start of their month or year

A date of a four-digit year is written `text c`, which is `YYYY-MM-DD`. `Date::Parse` and
`Date::Format` are inverse between these texts and the day numbers in range (`parse_format`), and
`Date::Truncate` finds the last day that starts a unit, years excepted (`truncatesRight_iff`).
-/

namespace ColumnarEngine.Date

open Found

/-! ## Decimal digits -/

/-- A number in `len` decimal digits; higher digits are dropped. -/
def decimal : ℕ → ℕ → Bytes
  | 0, _ => []
  | len + 1, n => decimal len (n / 10) ++ [digitChar (n % 10 : ℕ)]

@[simp] theorem length_decimal (len n : ℕ) : (decimal len n).length = len := by
  induction len generalizing n with
  | zero => rfl
  | succ len ih => simp [decimal, ih]

/-- `write_digit` overwrites `len` places with the digits of a number. -/
theorem writeDigit_eq {len pos : ℕ} (n : ℕ) {res : Bytes} (h : pos + len ≤ res.length) :
    writeDigit n pos len res = res.take pos ++ decimal len n ++ res.drop (pos + len) := by
  induction len generalizing n res with
  | zero => simp [writeDigit, decimal]
  | succ len ih =>
      have hlt : pos + len < res.length := by omega
      have hdiv : (n : ℤ).tdiv 10 = (n / 10 : ℕ) := by rfl
      have hmod : (n : ℤ).tmod 10 = (n % 10 : ℕ) := by rfl
      have hdrop : (res.set (pos + len) (digitChar (n % 10 : ℕ))).drop (pos + len) =
          digitChar (n % 10 : ℕ) :: res.drop (pos + (len + 1)) := by
        rw [List.drop_set, if_neg (lt_irrefl _), Nat.sub_self, List.drop_eq_getElem_cons hlt,
          List.set_cons_zero, Nat.add_assoc]
      rw [writeDigit, hdiv, hmod, ih (n / 10) (by rw [List.length_set]; omega), hdrop,
        List.take_set_of_le (Nat.le_add_right pos len), decimal]
      simp only [List.append_assoc, List.singleton_append]

/-- A digit is read back. -/
theorem digitAt_eq {s : Bytes} {i k : ℕ} (hk : k < 10) (h : s[i]? = some (digitChar k)) :
    digitAt s i = k := by
  rw [digitAt, List.getD_eq_getElem?_getD, h, Option.getD_some]
  interval_cases k <;> decide

/-! ## The text of a date -/

/-- `YYYY-MM-DD`. -/
def text (c : CivilDate) : Bytes :=
  decimal 4 c.year ++ [45] ++ decimal 2 c.month ++ [45] ++ decimal 2 c.day

@[simp] theorem length_text (c : CivilDate) : (text c).length = 10 := by simp [text]

/-- The fields of a text that starts with a date. -/
theorem fields_text {c : CivilDate} (h : c.year ≤ 9999) (rest : Bytes) :
    yearAt (text c ++ rest) = c.year ∧ int2At (text c ++ rest) 5 = c.month ∧
      int2At (text c ++ rest) 8 = c.day := by
  have hmonth := c.month_le
  have hday := c.day_le.trans (CivilDate.monthLength_le _ _)
  have hdigit : ∀ {i : ℕ} (n : ℕ), (text c ++ rest)[i]? = some (digitChar (n % 10 : ℕ)) →
      digitAt (text c ++ rest) i = (n % 10 : ℕ) :=
    fun n hn => digitAt_eq (Nat.mod_lt n (by norm_num)) hn
  refine ⟨?_, ?_, ?_⟩
  · rw [yearAt, hdigit (i := 0) (c.year / 10 / 10 / 10) rfl, hdigit (i := 1) (c.year / 10 / 10) rfl,
      hdigit (i := 2) (c.year / 10) rfl, hdigit (i := 3) c.year rfl]
    omega
  · rw [int2At, hdigit (i := 5) (c.month / 10) rfl, hdigit (i := 6) c.month rfl]
    omega
  · rw [int2At, hdigit (i := 8) (c.day / 10) rfl, hdigit (i := 9) c.day rfl]
    omega

/-- The text of a date is read as its day number. -/
theorem parse_text {c : CivilDate} (h : c.year ≤ 9999) : parse (text c) = .ok (number c) := by
  have hfields := fields_text h []
  rw [List.append_nil] at hfields
  obtain ⟨hyear, hmonth, hday⟩ := hfields
  have hformat : ¬ ((text c).length ≠ 10 ∨ (text c)[4]? ≠ some 45 ∨ (text c)[7]? ≠ some 45) := by
    rintro (hlen | hdash | hdash)
    · exact hlen (length_text c)
    · exact hdash rfl
    · exact hdash rfl
  rw [parse, if_neg hformat, hyear, hmonth, hday, ofCivil_eq h]

/-- A day number is written as the text of its date. -/
theorem format_number {c : CivilDate} (h : c.year ≤ 9999) : format (number c) = text c := by
  have hmonth := c.month_le
  have hday := c.day_le.trans (CivilDate.monthLength_le _ _)
  rw [format, civil_number h]
  dsimp only
  rw [toInt32_eq_self (n := (c.day : ℤ)) (by omega) (by omega),
    toInt32_eq_self (n := (c.month : ℤ)) (by omega) (by omega),
    writeDigit_eq c.year (by decide)]
  rw [writeDigit_eq c.month (by simp; decide), writeDigit_eq c.day (by simp; decide)]
  rfl

/-- The days of four-digit years are an interval. -/
theorem inRange_iff {n : ℤ} : InRange n ↔ -719528 ≤ n ∧ n < 2932897 := by
  constructor
  · rintro ⟨c, h, rfl⟩
    have hlt := dayCount_lt_of_year_le h
    rw [number_eq]
    omega
  · rintro ⟨hlo, hhi⟩
    obtain ⟨c, hc⟩ := CivilDate.exists_dayCount (n + 719528).toNat
    refine ⟨c, ?_, by rw [number_eq]; omega⟩
    by_contra hyear
    have hyear' := daysBeforeYear_eq c.year
    rw [CivilDate.dayCount] at hc
    omega

/-- **Dates**: parsing gives the number of days from 1970-01-01 and formatting gives the text back,
for every date of a four-digit year; and every day number in range is read back from its text. -/
theorem parse_format :
    (∀ c : CivilDate, c.year ≤ 9999 →
      parse (text c) = .ok (number c) ∧ format (number c) = text c) ∧
    ∀ n, InRange n → parse (format n) = .ok n := by
  refine ⟨fun c h => ⟨parse_text h, format_number h⟩, ?_⟩
  rintro n ⟨c, h, rfl⟩
  rw [format_number h, parse_text h]

/-- A leap day. -/
theorem parse_format_leap_day :
    parse (ascii "0004-02-29") = .ok (1460 + 59 + 1 - 719528) ∧
      parse (format (-1)) = .ok (-1) := by
  have hcount : number ⟨4, 2, 29, by decide, by decide, by decide, by decide⟩ =
      1460 + 59 + 1 - 719528 := by rw [number_eq]; rfl
  refine ⟨?_, parse_format.2 (-1) (inRange_iff.mpr ⟨by norm_num, by norm_num⟩)⟩
  have htext : text ⟨4, 2, 29, by decide, by decide, by decide, by decide⟩ =
      ascii "0004-02-29" := by decide
  rw [← hcount, ← htext]
  exact (parse_format.1 ⟨4, 2, 29, by decide, by decide, by decide, by decide⟩ (by decide)).1

/-! ## The start of a unit -/

/-- The date is the first day of its month or year; every date is the first day of itself. -/
def StartsUnit : TimeUnitType → CivilDate → Prop
  | .year, c => c.month = 1 ∧ c.day = 1
  | .month, c => c.day = 1
  | _, _ => True

/-- The text of the first day of the unit of a date, from the text of the date. -/
def startText : TimeUnitType → Bytes → Bytes
  | .year, s => s.take 4 ++ ascii "-01-01"
  | .month, s => s.take 8 ++ ascii "01"
  | _, s => s

/-- `Date::Truncate` gives the start of the unit of a day. -/
structure TruncatesRight (n : ℤ) (unit : TimeUnitType) : Prop where
  /-- It is the last day not after `n` that starts a unit. -/
  greatest : IsGreatest {k | k ≤ n ∧ ∃ c, StartsUnit unit c ∧ number c = k} (truncate n unit)
  /-- It is a day of the same year, or of the same year and month. -/
  text : format (truncate n unit) = startText unit (format n)
  idempotent : truncate (truncate n unit) unit = truncate n unit
  monotone : ∀ n', InRange n' → n ≤ n' → truncate n unit ≤ truncate n' unit

/-- Units up to a day leave a day alone. -/
theorem truncate_day {unit : TimeUnitType} (hm : unit ≠ .month) (hy : unit ≠ .year) (n : ℤ) :
    truncate n unit = n := by
  cases unit <;> simp_all [truncate]

/-- A month starts on its first day. -/
theorem truncate_month {c : CivilDate} (h : c.year ≤ 9999) :
    truncate (number c) .month = number c.firstOfMonth := by
  have hcount := dayCount_lt_of_year_le h
  have hday := c.day_le.trans (CivilDate.monthLength_le _ _)
  have hpos := c.day_pos
  have hunfold : ∀ n, truncate n .month = toInt32 (n - toInt32 (civil n).2.2 + 1) := fun _ => rfl
  have hfirst : (c.firstOfMonth.dayCount : ℤ) = c.dayCount - (c.day - 1) := by
    simp only [CivilDate.dayCount, CivilDate.firstOfMonth]
    omega
  rw [hunfold, civil_number h, number_eq, number_eq, hfirst]
  dsimp only
  rw [toInt32_eq_self (n := (c.day : ℤ)) (by omega) (by omega),
    toInt32_eq_self (by omega) (by omega)]
  omega

/-- The year of a date is truncated to the first day of the year after. -/
theorem truncate_year {c : CivilDate} (h : c.year ≤ 9999) :
    truncate (number c) .year = daysBeforeYear (c.year + 1) - 719528 := by
  have hunfold : ∀ n, truncate n .year =
      let year := (civil n).1
      let e := (if 0 ≤ year then year else year - (400 - 1)).tdiv 400
      let ye := toUnsigned (year - e * 400)
      let de := toUnsigned (ye * 365 + ye / 4 - ye / 100 + 306)
      toInt32 (e * 146097 + toInt32 de - 719468) := fun _ => rfl
  have hyear := daysBeforeYear_eq (c.year + 1)
  have hera := tdiv_shift_eq_ediv (c.year : ℤ) (show (0 : ℤ) < 400 by norm_num)
  obtain ⟨e, he⟩ : ∃ e : ℤ, e = (c.year : ℤ) / 400 := ⟨_, rfl⟩
  obtain ⟨r, hr⟩ : ∃ r : ℤ, r = (c.year : ℤ) % 400 := ⟨_, rfl⟩
  have hrem : (c.year : ℤ) - e * 400 = r := by omega
  have hfour : ((c.year : ℤ) + 4) / 4 = 100 * e + r / 4 + 1 := by omega
  have hcentury : ((c.year : ℤ) + 100) / 100 = 4 * e + r / 100 + 1 := by omega
  rw [hunfold, civil_number h]
  dsimp only
  rw [hera, ← he, hrem, toUnsigned_eq_self (n := r) (by omega) (by omega),
    toUnsigned_eq_self (by omega) (by omega), toInt32_eq_self (n := r * 365 + _ - _ + _) (by omega)
      (by omega), toInt32_eq_self (by omega) (by omega)]
  omega

/-- Days, and what is below a day, are their own start. -/
theorem truncatesRight_day {unit : TimeUnitType} (hm : unit ≠ .month) (hy : unit ≠ .year) {n : ℤ}
    (hn : InRange n) : TruncatesRight n unit := by
  obtain ⟨c, -, hc⟩ := hn
  have hstarts : StartsUnit unit c := by cases unit <;> simp_all [StartsUnit]
  have htext : startText unit (format n) = format n := by cases unit <;> simp_all [startText]
  refine ⟨?_, ?_, ?_, ?_⟩
  · rw [truncate_day hm hy]
    exact ⟨⟨le_rfl, c, hstarts, hc⟩, fun k hk => hk.1⟩
  · rw [truncate_day hm hy, htext]
  · simp only [truncate_day hm hy]
  · intro n' _ hle
    simpa only [truncate_day hm hy] using hle

/-- The text of the first day of a month. -/
theorem text_firstOfMonth (c : CivilDate) : text c.firstOfMonth = startText .month (text c) := by
  have hone : decimal 2 1 = ascii "01" := by decide
  have htake : (text c).take 8 = decimal 4 c.year ++ [45] ++ decimal 2 c.month ++ [45] :=
    List.take_left' (by simp)
  rw [startText, htake, ← hone]
  rfl

/-- Months are truncated to their start. -/
theorem truncatesRight_month {n : ℤ} (hn : InRange n) : TruncatesRight n .month := by
  obtain ⟨c, h, rfl⟩ := hn
  have hfirst : ∀ c' : CivilDate, c'.day = 1 → c'.firstOfMonth = c' := by
    intro c' hday
    exact CivilDate.ext rfl rfl hday.symm
  have hyear : c.firstOfMonth.year ≤ 9999 := h
  refine ⟨?_, ?_, ?_, ?_⟩
  · rw [truncate_month h]
    refine ⟨⟨number_le_number.mpr c.firstOfMonth_le, c.firstOfMonth, rfl, rfl⟩, ?_⟩
    rintro k ⟨hk, c', hday, rfl⟩
    rw [← hfirst c' hday]
    exact number_le_number.mpr (CivilDate.firstOfMonth_mono (number_le_number.mp hk))
  · rw [truncate_month h, format_number h, format_number hyear, text_firstOfMonth]
  · rw [truncate_month h, truncate_month hyear, hfirst _ rfl]
  · rintro n' ⟨c', h', rfl⟩ hle
    rw [truncate_month h, truncate_month h']
    exact number_le_number.mpr (CivilDate.firstOfMonth_mono (number_le_number.mp hle))

/-- **Truncation** of a day of a four-digit year gives the start of the unit for every unit but the
year; the year is always truncated to a later day. -/
theorem truncatesRight_iff {n : ℤ} (hn : InRange n) (unit : TimeUnitType) :
    TruncatesRight n unit ↔ unit ≠ .year := by
  constructor
  · rintro h rfl
    obtain ⟨c, hyear, rfl⟩ := hn
    have hle := h.greatest.1.1
    have hlt := c.dayCount_lt_year
    rw [truncate_year hyear, number_eq] at hle
    omega
  · intro hyear
    by_cases hmonth : unit = .month
    · rw [hmonth]
      exact truncatesRight_month hn
    · exact truncatesRight_day hmonth hyear hn

/-- The last day of February 2024 and its month. -/
theorem truncatesRight_february : TruncatesRight 19782 .month :=
  (truncatesRight_iff (inRange_iff.mpr ⟨by norm_num, by norm_num⟩) .month).mpr (by decide)

/-- 1970-01-01 is truncated to 1971-01-01. -/
theorem not_truncatesRight_epoch :
    InRange 0 ∧ ¬ TruncatesRight 0 .year ∧ truncate 0 .year = 365 := by
  have htruncate : truncate 0 .year = 365 := by decide
  refine ⟨inRange_iff.mpr ⟨by norm_num, by norm_num⟩, ?_, htruncate⟩
  intro h
  have hle := h.greatest.1.1
  rw [htruncate] at hle
  omega

end ColumnarEngine.Date