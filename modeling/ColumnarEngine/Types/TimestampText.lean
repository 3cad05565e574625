import ColumnarEngine.Types.DateText

/-!
# Timestamps as text, and the start of their minute, hour, day, month or year

A timestamp is a day number and a time of day: `t = 86400 * (t / 86400) + t % 86400`, with the
quotient rounded down on both sides of 1970. `Format`, `ExtractMinute` and the small units of
`Truncate` correct the remainder of a negative number accordingly; the large units of `Truncate`
take the quotient towards zero, which before 1970 is the day after (`tdiv_day`).
-/

namespace ColumnarEngine.Timestamp

open Found

/-- A time of day that exists. -/
structure TimeOfDay where
  hour : ℕ
  minute : ℕ
  second : ℕ
  hour_lt : hour < 24
  minute_lt : minute < 60
  second_lt : second < 60

/-- The seconds since midnight. -/
def TimeOfDay.seconds (τ : TimeOfDay) : ℤ := 3600 * τ.hour + 60 * τ.minute + τ.second

/-- `YYYY-MM-DD hh:mm:ss`. -/
def text (c : CivilDate) (τ : TimeOfDay) : Bytes :=
  Date.text c ++ ([32] ++ Date.decimal 2 τ.hour ++ [58] ++ Date.decimal 2 τ.minute ++ [58] ++
    Date.decimal 2 τ.second)

/-- The timestamps of days in range. -/
def InRange (t : ℤ) : Prop := Date.InRange (t / 86400)

theorem seconds_bounds (τ : TimeOfDay) : 0 ≤ τ.seconds ∧ τ.seconds < 86400 := by
  have hhour := τ.hour_lt
  have hminute := τ.minute_lt
  have hsecond := τ.second_lt
  unfold TimeOfDay.seconds
  omega

/-- Every number of seconds below a day is a time of day. -/
theorem exists_seconds {s : ℤ} (h : 0 ≤ s) (h' : s < 86400) : ∃ τ : TimeOfDay, τ.seconds = s := by
  refine ⟨⟨(s / 3600).toNat, (s % 3600 / 60).toNat, (s % 60).toNat, by omega, by omega, by omega⟩,
    ?_⟩
  simp only [TimeOfDay.seconds]
  omega

/-- Every timestamp in range is a date and a time of day. -/
theorem exists_civil {t : ℤ} (h : InRange t) :
    ∃ (c : CivilDate) (τ : TimeOfDay), c.year ≤ 9999 ∧ t = 86400 * Date.number c + τ.seconds := by
  obtain ⟨c, hyear, hc⟩ := h
  obtain ⟨τ, hτ⟩ := exists_seconds (Int.emod_nonneg t (by norm_num))
    (Int.emod_lt_of_pos t (by norm_num))
  refine ⟨c, τ, hyear, ?_⟩
  rw [hc, hτ]
  omega

/-! ## Quotients -/

/-- The day that `Format` computes. -/
theorem floorDay (t : ℤ) :
    (if t.tmod 86400 < 0 then t.tdiv 86400 - 1 else t.tdiv 86400) = t / 86400 := by
  have hmod := Int.tmod_add_mul_tdiv t 86400
  have hlt := Int.tmod_lt_of_pos t (b := 86400) (by decide)
  have hgt := Int.lt_tmod_of_pos t (b := 86400) (by decide)
  split_ifs <;> omega

/-- Towards zero, a day before 1970 that is not a midnight counts as the day after. -/
theorem tdiv_day (t : ℤ) :
    t.tdiv 86400 = if 0 ≤ t ∨ 86400 ∣ t then t / 86400 else t / 86400 + 1 := by
  split_ifs with h
  · rcases h with hpos | hdvd
    · exact Int.tdiv_eq_ediv_of_nonneg hpos
    · exact Int.tdiv_eq_ediv_of_dvd hdvd
  · have hneg : t.tdiv 86400 = -(-t / 86400) := by
      rw [← Int.tdiv_eq_ediv_of_nonneg (by omega), Int.neg_tdiv, neg_neg]
    omega

/-! ## Text -/

/-- `write_digit` overwrites two places with the digits of a number. -/
theorem writeTwo_append (pre post : Bytes) (x y : UInt8) {n : ℕ} (hn : n < 100) :
    writeTwo n pre.length (pre ++ x :: y :: post) = pre ++ (Date.decimal 2 n ++ post) := by
  have hdiv : (n : ℤ).tdiv 10 = (n / 10 % 10 : ℕ) := by
    rw [show (n : ℤ).tdiv 10 = (n / 10 : ℕ) from rfl]
    omega
  have hmod : (n : ℤ).tmod 10 = (n % 10 : ℕ) := rfl
  rw [writeTwo, hdiv, hmod, List.set_append_right _ _ le_rfl, Nat.sub_self, List.set_cons_zero,
    List.set_append_right _ _ (Nat.le_succ _), Nat.succ_sub le_rfl, Nat.sub_self,
    List.set_cons_succ, List.set_cons_zero]
  rfl

/-- `Format` fills in the time. -/
theorem writeTime (pre : Bytes) {h m s : ℕ} (hh : h < 100) (hm : m < 100) (hs : s < 100) :
    writeTwo s (pre.length + 7) (writeTwo m (pre.length + 4) (writeTwo h (pre.length + 1)
      (pre ++ ascii " 00:00:00"))) =
      pre ++
        ([32] ++ Date.decimal 2 h ++ [58] ++ Date.decimal 2 m ++ [58] ++ Date.decimal 2 s) := by
  have hascii : ascii " 00:00:00" = [32] ++ 48 :: 48 :: [58, 48, 48, 58, 48, 48] := by decide
  have hhour := writeTwo_append (pre ++ [32]) [58, 48, 48, 58, 48, 48] 48 48 hh
  have hminute := writeTwo_append (pre ++ [32] ++ Date.decimal 2 h ++ [58]) [58, 48, 48] 48 48 hm
  have hsecond := writeTwo_append
    (pre ++ [32] ++ Date.decimal 2 h ++ [58] ++ Date.decimal 2 m ++ [58]) [] 48 48 hs
  simp only [List.length_append, List.length_singleton, Date.length_decimal, List.append_assoc,
    List.append_nil] at hhour hminute hsecond ⊢
  rw [hascii, hhour]
  simp only [List.cons_append, List.nil_append] at hminute hsecond ⊢
  rw [hminute, hsecond]

/-- The fields of a time of day are read from its text. -/
theorem fields_text (c : CivilDate) (τ : TimeOfDay) :
    int2At (text c τ) 11 = τ.hour ∧ int2At (text c τ) 14 = τ.minute ∧
      int2At (text c τ) 17 = τ.second := by
  have hdigit : ∀ {i : ℕ} (n : ℕ), (text c τ)[i]? = some (Date.digitChar (n % 10 : ℕ)) →
      digitAt (text c τ) i = (n % 10 : ℕ) :=
    fun n hn => Date.digitAt_eq (Nat.mod_lt n (by norm_num)) hn
  have htwo : ∀ {i : ℕ} (n : ℕ), n < 100 →
      (text c τ)[i]? = some (Date.digitChar (n / 10 % 10 : ℕ)) →
      (text c τ)[i + 1]? = some (Date.digitChar (n % 10 : ℕ)) → int2At (text c τ) i = n := by
    intro i n hn hi hi'
    rw [int2At, hdigit (n / 10) hi, hdigit n hi']
    omega
  exact ⟨htwo τ.hour (τ.hour_lt.trans (by norm_num)) rfl rfl,
    htwo τ.minute (τ.minute_lt.trans (by norm_num)) rfl rfl,
    htwo τ.second (τ.second_lt.trans (by norm_num)) rfl rfl⟩

/-- The text of a timestamp is read as its seconds. -/
theorem parse_text {c : CivilDate} (h : c.year ≤ 9999) (τ : TimeOfDay) :
    parse (text c τ) = .ok (86400 * Date.number c + τ.seconds) := by
  obtain ⟨hyear, hmonth, hday⟩ := Date.fields_text h ([32] ++ Date.decimal 2 τ.hour ++ [58] ++
    Date.decimal 2 τ.minute ++ [58] ++ Date.decimal 2 τ.second)
  obtain ⟨hhour, hminute, hsecond⟩ := fields_text c τ
  have hformat : ¬ ((text c τ).length ≠ 19 ∨ (text c τ)[4]? ≠ some 45 ∨ (text c τ)[7]? ≠ some 45 ∨
      (text c τ)[10]? ≠ some 32 ∨ (text c τ)[13]? ≠ some 58 ∨ (text c τ)[16]? ≠ some 58) := by
    rintro (hlen | hdash | hdash | hblank | hcolon | hcolon)
    · exact hlen (by simp [text])
    all_goals exact absurd rfl (by assumption)
  have hdays : Date.ofCivil (yearAt (text c τ)) (int2At (text c τ) 5) (int2At (text c τ) 8) =
      Date.number c := by
    rw [text, hyear, hmonth, hday, Date.ofCivil_eq h]
  have hsum : ∀ days : ℤ, days * 86400 + ((τ.hour : ℤ) * 3600 + (τ.minute : ℤ) * 60 + τ.second) =
      86400 * days + τ.seconds := by
    intro days
    rw [TimeOfDay.seconds]
    ring
  rw [parse, if_neg hformat, hdays, hhour, hminute, hsecond, ← hsum]

/-- A timestamp is written as the text of its date and time. -/
theorem format_eq {c : CivilDate} (h : c.year ≤ 9999) (τ : TimeOfDay) :
    format (86400 * Date.number c + τ.seconds) = text c τ := by
  obtain ⟨hlo, hhi⟩ := Date.inRange_iff.mp ⟨c, h, rfl⟩
  have hbounds := seconds_bounds τ
  have hhour := τ.hour_lt
  have hminute := τ.minute_lt
  have hsecond := τ.second_lt
  obtain ⟨t, ht⟩ : ∃ t, t = 86400 * Date.number c + τ.seconds := ⟨_, rfl⟩
  have hday : t / 86400 = Date.number c := by omega
  have hrem : secondsInDay t = τ.seconds := by rw [secondsInDay_eq]; omega
  have hunfold : format t =
      writeTwo ((secondsInDay t).tmod 60) 17 (writeTwo (((secondsInDay t).tmod 3600).tdiv 60) 14
        (writeTwo ((secondsInDay t).tdiv 3600) 11 (Date.format (toInt32
          (if t.tmod 86400 < 0 then t.tdiv 86400 - 1 else t.tdiv 86400)) ++
            ascii " 00:00:00"))) := rfl
  have hhours : τ.seconds.tdiv 3600 = τ.hour := by
    rw [Int.tdiv_eq_ediv_of_nonneg hbounds.1, TimeOfDay.seconds]
    omega
  have hminutes : (τ.seconds.tmod 3600).tdiv 60 = τ.minute := by
    rw [Int.tmod_eq_emod_of_nonneg hbounds.1, Int.tdiv_eq_ediv_of_nonneg (by omega),
      TimeOfDay.seconds]
    omega
  have hseconds : τ.seconds.tmod 60 = τ.second := by
    rw [Int.tmod_eq_emod_of_nonneg hbounds.1, TimeOfDay.seconds]
    omega
  have htime := writeTime (Date.text c) (show τ.hour < 100 by omega) (show τ.minute < 100 by omega)
    (show τ.second < 100 by omega)
  rw [Date.length_text] at htime
  rw [← ht, hunfold, floorDay, hday, hrem, hhours, hminutes, hseconds,
    Date.toInt32_eq_self (by omega) (by omega), Date.format_number h, htime, text]

/-- The minute of a timestamp is that of its time of day. -/
theorem extractMinute_eq (c : CivilDate) (τ : TimeOfDay) :
    extractMinute (86400 * Date.number c + τ.seconds) = τ.minute := by
  have hbounds := seconds_bounds τ
  have hminute := τ.minute_lt
  have hsecond := τ.second_lt
  have hday : secondsInDay (86400 * Date.number c + τ.seconds) = τ.seconds := by
    rw [secondsInDay_eq]
    omega
  rw [extractMinute, hday, Int.tmod_eq_emod_of_nonneg hbounds.1,
    Int.tdiv_eq_ediv_of_nonneg (by omega), TimeOfDay.seconds]
  omega

/-- The text of a timestamp starts with the text of its day. -/
theorem take_format {t : ℤ} (h : InRange t) : (format t).take 10 = Date.format (t / 86400) := by
  obtain ⟨c, τ, hyear, hc⟩ := exists_civil h
  have hbounds := seconds_bounds τ
  have hday : t / 86400 = Date.number c := by omega
  rw [hday, hc, format_eq hyear, Date.format_number hyear, text,
    List.take_left' (Date.length_text c)]

/-- **Timestamps**: the text of a date and time of day is read as the seconds of the date, read from
its first ten characters, plus the seconds since midnight, and formatting gives the text back; every
timestamp in range is read back from its text, where its minute is the one extracted. -/
theorem parse_format_seconds :
    (∀ (c : CivilDate) (τ : TimeOfDay), c.year ≤ 9999 →
      ∃ days, Date.parse ((text c τ).take 10) = .ok days ∧
        parse (text c τ) = .ok (86400 * days + 3600 * τ.hour + 60 * τ.minute + τ.second) ∧
        format (86400 * days + 3600 * τ.hour + 60 * τ.minute + τ.second) = text c τ) ∧
    ∀ t, InRange t → parse (format t) = .ok t ∧ extractMinute t = int2At (format t) 14 := by
  constructor
  · intro c τ hyear
    have hsum : 86400 * Date.number c + 3600 * (τ.hour : ℤ) + 60 * τ.minute + τ.second =
        86400 * Date.number c + τ.seconds := by
      rw [TimeOfDay.seconds]
      ring
    refine ⟨Date.number c, ?_, ?_, ?_⟩
    · rw [text, List.take_left' (Date.length_text c), Date.parse_text hyear]
    · rw [hsum, parse_text hyear]
    · rw [hsum, format_eq hyear]
  · intro t ht
    obtain ⟨c, τ, hyear, hc⟩ := exists_civil ht
    rw [hc, format_eq hyear, extractMinute_eq, (fields_text c τ).2.1]
    exact ⟨parse_text hyear τ, rfl⟩

/-- The last second of the leap day of year 4, and the last second before 1970. -/
theorem parse_format_leap_second :
    parse (ascii "0004-02-29 23:59:59") = .ok (86400 * (1460 + 59 + 1 - 719528) + 86399) ∧
      parse (format (-1)) = .ok (-1) ∧ extractMinute (-1) = int2At (format (-1)) 14 := by
  have hlast : InRange (-1) := Date.inRange_iff.mpr ⟨by norm_num, by norm_num⟩
  refine ⟨?_, parse_format_seconds.2 (-1) hlast⟩
  obtain ⟨days, hdays, hparse, -⟩ := parse_format_seconds.1
    ⟨4, 2, 29, by decide, by decide, by decide, by decide⟩
    ⟨23, 59, 59, by decide, by decide, by decide⟩ (by decide)
  have htext : text ⟨4, 2, 29, by decide, by decide, by decide, by decide⟩
      ⟨23, 59, 59, by decide, by decide, by decide⟩ = ascii "0004-02-29 23:59:59" := by decide
  rw [htext] at hdays hparse
  have hleap : Date.parse ((ascii "0004-02-29 23:59:59").take 10) =
      .ok (1460 + 59 + 1 - 719528) := by decide
  obtain rfl := Except.ok.inj (hdays.symm.trans hleap)
  exact hparse

/-! ## The start of a unit -/

/-- The length of a unit that is a number of seconds. -/
def unitSeconds : TimeUnitType → ℤ
  | .minute => 60
  | .hour => 3600
  | .day => 86400
  | _ => 1

/-- `Timestamp::Truncate` agrees with the calendar: it gives the greatest multiple of a unit that is
a number of seconds, and the start of the month or year of the day that `Format` prints. -/
def TruncatesRight (t : ℤ) (unit : TimeUnitType) : Prop :=
  if unit = .month ∨ unit = .year then
    truncate t unit = 86400 * Date.truncate (t / 86400) unit ∧
      (format t).take 10 = Date.format (t / 86400)
  else IsGreatest {k | k ≤ t ∧ unitSeconds unit ∣ k} (truncate t unit)

/-- The timestamp is not taken for one of a later month or year: the unit is a number of seconds, or
the timestamp is from 1970 on or a midnight, or the day after starts no new month or year. -/
def Aligned (t : ℤ) (unit : TimeUnitType) : Prop :=
  (unit ≠ .month ∧ unit ≠ .year) ∨ 0 ≤ t ∨ 86400 ∣ t ∨
    ¬ ∃ c, Date.StartsUnit unit c ∧ Date.number c = t / 86400 + 1

/-- Taking off the remainder gives the greatest multiple. -/
theorem isGreatest_sub_emod (t : ℤ) {b : ℤ} (hb : 0 < b) :
    IsGreatest {k | k ≤ t ∧ b ∣ k} (t - t % b) := by
  have hnonneg := Int.emod_nonneg t hb.ne'
  refine ⟨⟨by omega, Int.dvd_self_sub_emod⟩, ?_⟩
  rintro k ⟨hk, q, rfl⟩
  have hle : q ≤ t / b := (Int.le_ediv_iff_mul_le hb).mpr (by rwa [mul_comm])
  have hdiv := Int.emod_add_mul_ediv t b
  have hmul := mul_le_mul_of_nonneg_left hle hb.le
  linarith

/-- Units that are numbers of seconds. -/
theorem truncatesRight_seconds (t : ℤ) {unit : TimeUnitType} (hm : unit ≠ .month)
    (hy : unit ≠ .year) : TruncatesRight t unit := by
  rw [TruncatesRight, if_neg (not_or.mpr ⟨hm, hy⟩)]
  have hday := secondsInDay_eq t
  have hnonneg : 0 ≤ secondsInDay t := by omega
  have hrem : truncate t unit = t - t % unitSeconds unit := by
    cases unit with
    | year => exact absurd rfl hy
    | month => exact absurd rfl hm
    | day => rw [truncate, hday, unitSeconds]
    | hour =>
        rw [truncate, Int.tmod_eq_emod_of_nonneg hnonneg, unitSeconds]
        omega
    | minute =>
        rw [truncate, Int.tmod_eq_emod_of_nonneg hnonneg, unitSeconds]
        omega
    | second => simp [truncate, unitSeconds]
  rw [hrem]
  exact isGreatest_sub_emod t (by cases unit <;> decide)

/-- Months and years take the day number towards zero. -/
theorem truncate_unit {t : ℤ} (ht : InRange t) {unit : TimeUnitType}
    (hunit : unit = .month ∨ unit = .year) :
    truncate t unit = 86400 * Date.truncate (t.tdiv 86400) unit := by
  obtain ⟨hlo, hhi⟩ := Date.inRange_iff.mp ht
  have hday := tdiv_day t
  have hfit : toInt32 (t.tdiv 86400) = t.tdiv 86400 := by
    refine Date.toInt32_eq_self ?_ ?_ <;> split_ifs at hday <;> omega
  rcases hunit with rfl | rfl
  · rw [truncate, hfit, mul_comm]
  · rw [truncate, hfit, mul_comm]

/-- The day after a date is in the same unit, month or year, unless it starts a new one. -/
theorem truncate_next {c : CivilDate} (h : c.next.year ≤ 9999) {unit : TimeUnitType}
    (hunit : unit = .month ∨ unit = .year) :
    Date.truncate (Date.number c.next) unit = Date.truncate (Date.number c) unit ↔
      ¬ Date.StartsUnit unit c.next := by
  have hday := c.day_pos
  have hmonth := c.month_pos
  have hcases := c.next_cases
  have hyear : c.year ≤ 9999 := by omega
  rcases hunit with rfl | rfl
  · rw [Date.truncate_month h, Date.truncate_month hyear, Date.number_injective.eq_iff,
      CivilDate.ext_iff, Date.StartsUnit]
    simp only [CivilDate.firstOfMonth, and_true]
    omega
  · have hnext := daysBeforeYear_eq (c.next.year + 1)
    have hthis := daysBeforeYear_eq (c.year + 1)
    rw [Date.truncate_year h, Date.truncate_year hyear, Date.StartsUnit]
    omega

/-- A day below 1970 and the day after it. -/
theorem exists_next {n : ℤ} (h : Date.InRange n) (hneg : n < 0) :
    ∃ c : CivilDate, c.next.year ≤ 9999 ∧ Date.number c = n ∧ Date.number c.next = n + 1 := by
  have hrange := Date.inRange_iff.mp h
  obtain ⟨c, hyear, hc⟩ := h
  obtain ⟨c', hyear', hc'⟩ : Date.InRange (n + 1) := Date.inRange_iff.mpr ⟨by omega, by omega⟩
  have hnext : Date.number c.next = n + 1 := by
    have hcount := c.dayCount_next
    rw [Date.number_eq] at hc ⊢
    omega
  have heq : c' = c.next := Date.number_injective (hc'.trans hnext.symm)
  exact ⟨c, heq ▸ hyear', hc, hnext⟩

/-- **Truncation** of a timestamp agrees with the calendar when it is aligned, and only then. -/
theorem truncatesRight_iff_aligned {t : ℤ} (ht : InRange t) (unit : TimeUnitType) :
    TruncatesRight t unit ↔ Aligned t unit := by
  by_cases hunit : unit = .month ∨ unit = .year
  · rw [TruncatesRight, if_pos hunit, truncate_unit ht hunit, tdiv_day,
      and_iff_left (take_format ht), mul_right_inj' (by norm_num)]
    by_cases hfloor : 0 ≤ t ∨ 86400 ∣ t
    · rw [if_pos hfloor]
      exact iff_of_true rfl (.inr (or_assoc.mp (.inl hfloor)))
    · have hlarge : ¬ (unit ≠ .month ∧ unit ≠ .year) := fun h => hunit.elim h.1 h.2
      obtain ⟨c, hyear, hc, hnext⟩ := exists_next ht (by omega)
      have hstarts : (∃ c', Date.StartsUnit unit c' ∧ Date.number c' = t / 86400 + 1) ↔
          Date.StartsUnit unit c.next := by
        constructor
        · rintro ⟨c', hc', hnumber⟩
          rwa [← Date.number_injective (hnumber.trans hnext.symm)]
        · exact fun h => ⟨c.next, h, hnext⟩
      rw [if_neg hfloor, Aligned, or_iff_right hlarge, ← or_assoc, or_iff_right hfloor, hstarts,
        ← hnext, ← hc]
      exact truncate_next hyear hunit
  · obtain ⟨hm, hy⟩ := not_or.mp hunit
    exact iff_of_true (truncatesRight_seconds t hm hy) (.inl ⟨hm, hy⟩)

/-- A second before midnight on 1969-12-30, and its month. -/
theorem truncatesRight_december : TruncatesRight (-86401) .month := by
  refine (truncatesRight_iff_aligned (Date.inRange_iff.mpr ⟨by norm_num, by norm_num⟩) .month).mpr
    (.inr (.inr (.inr ?_)))
  rintro ⟨c, hday, hc⟩
  obtain ⟨last, hlast⟩ : ∃ d : CivilDate, d.next = Date.epoch ∧ d.day = 31 :=
    ⟨⟨1969, 12, 31, by decide, by decide, by decide, by decide⟩, by decide, rfl⟩
  have hcount := last.dayCount_next
  rw [hlast.1, Date.dayCount_epoch] at hcount
  have heq : c = last := by
    apply Date.number_injective
    rw [hc, Date.number_eq]
    omega
  rw [Date.StartsUnit, heq] at hday
  omega

/-- The last second of 1969 is truncated to January 1970. -/
theorem not_truncatesRight_newYear :
    InRange (-1) ∧ ¬ TruncatesRight (-1) .month ∧ truncate (-1) .month = 0 ∧
      86400 * Date.truncate (-1 / 86400) .month = -2678400 := by
  have htruncate : truncate (-1) .month = 0 := by decide
  have hdate : 86400 * Date.truncate (-1 / 86400) .month = -2678400 := by decide
  refine ⟨Date.inRange_iff.mpr ⟨by norm_num, by norm_num⟩, ?_, htruncate, hdate⟩
  intro h
  rw [TruncatesRight, if_pos (.inl rfl), htruncate, hdate] at h
  exact absurd h.1 (by norm_num)

end ColumnarEngine.Timestamp
