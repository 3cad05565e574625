import ColumnarEngine.Column.IntegerText
import ColumnarEngine.Types.TimestampText

/-!
# Which texts are dates and timestamps

`Date::Parse` and `Timestamp::Parse` test the length of a text and its separators, and compute with
whatever stands between them. `DenotesDate` and `DenotesTimestamp` say which texts are those of a
date, or of a date and a time of day. The parsers accept exactly these on the texts that fail the
test, and on those whose fields are digits that name a day of the calendar and a time of day
(`parse_accepts_iff`).
-/

namespace ColumnarEngine

open Found

/-! ## Texts that denote -/

/-- The text is that of a date of a four-digit year, and the number is that of its day. -/
def DenotesDate (s : Bytes) (n : ℤ) : Prop :=
  ∃ c : CivilDate, c.year ≤ 9999 ∧ s = Date.text c ∧ Date.number c = n

/-- The text is that of a date of a four-digit year and a time of day, and the number is that of
their second. -/
def DenotesTimestamp (s : Bytes) (n : ℤ) : Prop :=
  ∃ (c : CivilDate) (τ : Timestamp.TimeOfDay), c.year ≤ 9999 ∧ s = Timestamp.text c τ ∧
    86400 * Date.number c + τ.seconds = n

/-- The parser accepts the text if it denotes a number, as that number, and raises the error of an
invalid format otherwise. -/
def AcceptsExactly (parse : Bytes → Except Bytes ℤ) (denotes : Bytes → ℤ → Prop) (s : Bytes) :
    Prop :=
  (∀ n, parse s = .ok n ↔ denotes s n) ∧
    ((¬ ∃ n, denotes s n) → parse s = .error (Date.invalidFormat s))

/-- A parser that accepts texts of a shape, with the right number where they denote one. -/
theorem acceptsExactly_iff {parse : Bytes → Except Bytes ℤ} {denotes : Bytes → ℤ → Prop} {s : Bytes}
    {shape valid : Prop} (hshape : shape → ∃ n, parse s = .ok n)
    (hother : ¬ shape → parse s = .error (Date.invalidFormat s))
    (hdenotes : ∀ n, denotes s n → parse s = .ok n)
    (hvalid : (∃ n, denotes s n) ↔ shape ∧ valid) :
    AcceptsExactly parse denotes s ↔ (shape → valid) := by
  constructor
  · rintro ⟨hok, -⟩ hs
    obtain ⟨n, hn⟩ := hshape hs
    exact (hvalid.mp ⟨n, (hok n).mp hn⟩).2
  · intro h
    by_cases hs : shape
    · obtain ⟨n, hn⟩ := hvalid.mpr ⟨hs, h hs⟩
      have hparse := hdenotes n hn
      refine ⟨fun m => ⟨?_, hdenotes m⟩, fun hnone => absurd ⟨n, hn⟩ hnone⟩
      intro hm
      obtain rfl := Except.ok.inj (hm.symm.trans hparse)
      exact hn
    · have hparse := hother hs
      refine ⟨fun m => ⟨?_, hdenotes m⟩, fun _ => hparse⟩
      intro hm
      cases hparse.symm.trans hm

/-! ## Fields of digits -/

/-- The characters of a field. -/
def field (s : Bytes) (i len : ℕ) : Bytes := (s.drop i).take len

/-- The number that a field writes. -/
def fieldValue (s : Bytes) (i len : ℕ) : ℕ := digitsValue (field s i len)

/-- The first ten characters have the digits of a day that exists. -/
structure NamesDay (s : Bytes) : Prop where
  yearDigits : (field s 0 4).all isDigit
  monthDigits : (field s 5 2).all isDigit
  dayDigits : (field s 8 2).all isDigit
  month_pos : 1 ≤ fieldValue s 5 2
  month_le : fieldValue s 5 2 ≤ 12
  day_pos : 1 ≤ fieldValue s 8 2
  day_le : fieldValue s 8 2 ≤ monthLength (fieldValue s 0 4) (fieldValue s 5 2)

/-- The last characters have the digits of a time of day. -/
structure NamesTime (s : Bytes) : Prop where
  hourDigits : (field s 11 2).all isDigit
  minuteDigits : (field s 14 2).all isDigit
  secondDigits : (field s 17 2).all isDigit
  hour_lt : fieldValue s 11 2 < 24
  minute_lt : fieldValue s 14 2 < 60
  second_lt : fieldValue s 17 2 < 60

/-- A digit is the character of its value. -/
theorem digitChar_sub {c : UInt8} (h : isDigit c) :
    c.toNat - 48 < 10 ∧ Date.digitChar (c.toNat - 48 : ℕ) = c := by
  obtain ⟨hlo, hhi⟩ := (isDigit_iff c).mp h
  have hlo' : 48 ≤ c.toNat := hlo
  have hhi' : c.toNat ≤ 57 := hhi
  have hnat : (((c.toNat - 48 : ℕ) : ℤ) + 48) % 256 = c.toNat := by omega
  refine ⟨by omega, ?_⟩
  unfold Date.digitChar
  rw [hnat, Int.toNat_natCast]
  exact UInt8.ofNat_toNat

theorem digitsValue_concat (ds : Bytes) (c : UInt8) :
    digitsValue (ds ++ [c]) = digitsValue ds * 10 + (c.toNat - 48) := numberFrom_append 0 ds [c]

/-- Digits are the decimal text of the number that they write, at their length. -/
theorem decimal_digitsValue {ds : Bytes} (h : ds.all isDigit) :
    Date.decimal ds.length (digitsValue ds) = ds ∧ digitsValue ds < 10 ^ ds.length := by
  induction ds using List.reverseRecOn with
  | nil => exact ⟨rfl, Nat.one_pos⟩
  | append_singleton ds c ih =>
      rw [List.all_append, List.all_cons, List.all_nil, Bool.and_true, Bool.and_eq_true_iff] at h
      obtain ⟨htext, hlt⟩ := ih h.1
      obtain ⟨hdigit, hchar⟩ := digitChar_sub h.2
      have hdiv : (digitsValue ds * 10 + (c.toNat - 48)) / 10 = digitsValue ds := by omega
      have hmod : (digitsValue ds * 10 + (c.toNat - 48)) % 10 = c.toNat - 48 := by omega
      rw [digitsValue_concat, List.length_append, List.length_singleton]
      constructor
      · unfold Date.decimal
        rw [hdiv, hmod, htext, hchar]
      · rw [pow_succ]
        omega

/-- The decimal text of a number is digits that write it. -/
theorem digitsValue_decimal (len : ℕ) {n : ℕ} (h : n < 10 ^ len) :
    (Date.decimal len n).all isDigit ∧ digitsValue (Date.decimal len n) = n := by
  induction len generalizing n with
  | zero =>
      obtain rfl : n = 0 := by omega
      exact ⟨rfl, rfl⟩
  | succ len ih =>
      obtain ⟨hall, hvalue⟩ := @ih (n / 10) (by rw [pow_succ] at h; omega)
      have hlt : n % 10 < 10 := Nat.mod_lt n (by norm_num)
      have hdigit : ∀ k < 10, isDigit (Date.digitChar (k : ℕ)) = true ∧
          (Date.digitChar (k : ℕ)).toNat - 48 = k := by decide
      obtain ⟨hchar, hnat⟩ := hdigit _ hlt
      unfold Date.decimal
      rw [digitsValue_concat, hvalue, hnat, List.all_append, hall, Bool.true_and]
      refine ⟨?_, by omega⟩
      rw [List.all_cons, hchar]
      rfl

/-! ## Fields and texts -/

variable {s : Bytes}

theorem drop_field (s : Bytes) (i len : ℕ) : s.drop i = field s i len ++ s.drop (i + len) := by
  unfold field
  rw [← List.drop_drop, List.take_append_drop]

theorem drop_separator {i : ℕ} {c : UInt8} (h : s[i]? = some c) :
    s.drop i = c :: s.drop (i + 1) := by
  obtain ⟨hlt, rfl⟩ := List.getElem?_eq_some_iff.mp h
  exact List.drop_eq_getElem_cons hlt

/-- A field of digits is the decimal text of its number. -/
theorem decimal_field {i len : ℕ} (hlen : i + len ≤ s.length) (h : (field s i len).all isDigit) :
    Date.decimal len (fieldValue s i len) = field s i len ∧ fieldValue s i len < 10 ^ len := by
  have hlength : (field s i len).length = len := by
    unfold field
    rw [List.length_take, List.length_drop]
    omega
  have hdecimal := decimal_digitsValue h
  rwa [hlength] at hdecimal

/-- A text that names a day starts with the text of a date. -/
theorem NamesDay.exists_text (h : NamesDay s) (hlen : 10 ≤ s.length) (hdash : s[4]? = some 45)
    (hdash' : s[7]? = some 45) :
    ∃ c : CivilDate, c.year ≤ 9999 ∧ s = Date.text c ++ s.drop 10 := by
  obtain ⟨hyear, hyear_lt⟩ := decimal_field (by omega) h.yearDigits
  obtain ⟨hmonth, -⟩ := decimal_field (by omega) h.monthDigits
  obtain ⟨hday, -⟩ := decimal_field (by omega) h.dayDigits
  refine ⟨⟨_, _, _, h.month_pos, h.month_le, h.day_pos, h.day_le⟩, Nat.le_of_lt_succ hyear_lt, ?_⟩
  unfold Date.text
  rw [hyear, hmonth, hday]
  have hsplit := drop_field s 0 4
  rw [drop_separator hdash, drop_field s 5 2, drop_separator hdash', drop_field s 8 2] at hsplit
  simpa using hsplit

/-- A text that names a time of day ends with its text. -/
theorem NamesTime.exists_text (h : NamesTime s) (hlen : s.length = 19) (hblank : s[10]? = some 32)
    (hcolon : s[13]? = some 58) (hcolon' : s[16]? = some 58) :
    ∃ τ : Timestamp.TimeOfDay, s.drop 10 = [32] ++ Date.decimal 2 τ.hour ++ [58] ++
      Date.decimal 2 τ.minute ++ [58] ++ Date.decimal 2 τ.second := by
  obtain ⟨hhour, -⟩ := decimal_field (by omega) h.hourDigits
  obtain ⟨hminute, -⟩ := decimal_field (by omega) h.minuteDigits
  obtain ⟨hsecond, -⟩ := decimal_field (by omega) h.secondDigits
  have hend : s.drop 19 = [] := List.drop_eq_nil_of_le hlen.le
  refine ⟨⟨_, _, _, h.hour_lt, h.minute_lt, h.second_lt⟩, ?_⟩
  dsimp only
  rw [hhour, hminute, hsecond, drop_separator hblank, drop_field s 11 2, drop_separator hcolon,
    drop_field s 14 2, drop_separator hcolon', drop_field s 17 2, hend]
  simp

/-- The text of a date names its day. -/
theorem namesDay_text {c : CivilDate} (h : c.year ≤ 9999) (rest : Bytes) :
    NamesDay (Date.text c ++ rest) := by
  have hmonth := c.month_le
  have hday := c.day_le.trans (CivilDate.monthLength_le _ _)
  obtain ⟨hyearDigits, hyearValue⟩ := digitsValue_decimal 4 (Nat.lt_succ_of_le h)
  obtain ⟨hmonthDigits, hmonthValue⟩ :=
    digitsValue_decimal 2 (show c.month < 10 ^ 2 by omega)
  obtain ⟨hdayDigits, hdayValue⟩ :=
    digitsValue_decimal 2 (show c.day < 10 ^ 2 by omega)
  have hfieldYear : fieldValue (Date.text c ++ rest) 0 4 = c.year := hyearValue
  have hfieldMonth : fieldValue (Date.text c ++ rest) 5 2 = c.month := hmonthValue
  have hfieldDay : fieldValue (Date.text c ++ rest) 8 2 = c.day := hdayValue
  refine ⟨hyearDigits, hmonthDigits, hdayDigits, ?_, ?_, ?_, ?_⟩
  · rw [hfieldMonth]
    exact c.month_pos
  · rwa [hfieldMonth]
  · rw [hfieldDay]
    exact c.day_pos
  · rw [hfieldDay, hfieldYear, hfieldMonth]
    exact c.day_le

/-- The text of a timestamp names its time of day. -/
theorem namesTime_text (c : CivilDate) (τ : Timestamp.TimeOfDay) :
    NamesTime (Timestamp.text c τ) := by
  have hhour := τ.hour_lt
  have hminute := τ.minute_lt
  have hsecond := τ.second_lt
  obtain ⟨hhourDigits, hhourValue⟩ :=
    digitsValue_decimal 2 (show τ.hour < 10 ^ 2 by omega)
  obtain ⟨hminuteDigits, hminuteValue⟩ :=
    digitsValue_decimal 2 (show τ.minute < 10 ^ 2 by omega)
  obtain ⟨hsecondDigits, hsecondValue⟩ :=
    digitsValue_decimal 2 (show τ.second < 10 ^ 2 by omega)
  have hfieldHour : fieldValue (Timestamp.text c τ) 11 2 = τ.hour := hhourValue
  have hfieldMinute : fieldValue (Timestamp.text c τ) 14 2 = τ.minute := hminuteValue
  have hfieldSecond : fieldValue (Timestamp.text c τ) 17 2 = τ.second := hsecondValue
  refine ⟨hhourDigits, hminuteDigits, hsecondDigits, ?_, ?_, ?_⟩
  · rwa [hfieldHour]
  · rwa [hfieldMinute]
  · rwa [hfieldSecond]

/-! ## What the parsers accept -/

/-- The test of `Date::Parse`: ten characters, with dashes at their places. -/
def DateShape (s : Bytes) : Prop := s.length = 10 ∧ s[4]? = some 45 ∧ s[7]? = some 45

/-- The test of `Timestamp::Parse`: nineteen characters, with dashes, a blank and colons at their
places. -/
def TimestampShape (s : Bytes) : Prop :=
  s.length = 19 ∧ s[4]? = some 45 ∧ s[7]? = some 45 ∧ s[10]? = some 32 ∧ s[13]? = some 58 ∧
    s[16]? = some 58

theorem parse_of_dateShape (h : DateShape s) : ∃ n, Date.parse s = .ok n := by
  obtain ⟨hlen, hdash, hdash'⟩ := h
  refine ⟨_, if_neg ?_⟩
  rintro (hne | hne | hne)
  · exact hne hlen
  · exact hne hdash
  · exact hne hdash'

theorem parse_of_not_dateShape (h : ¬ DateShape s) :
    Date.parse s = .error (Date.invalidFormat s) := by
  unfold DateShape at h
  unfold Date.parse
  rw [if_pos (by tauto)]

theorem parse_of_timestampShape (h : TimestampShape s) : ∃ n, Timestamp.parse s = .ok n := by
  obtain ⟨hlen, hdash, hdash', hblank, hcolon, hcolon'⟩ := h
  refine ⟨_, if_neg ?_⟩
  rintro (hne | hne | hne | hne | hne | hne)
  · exact hne hlen
  · exact hne hdash
  · exact hne hdash'
  · exact hne hblank
  · exact hne hcolon
  · exact hne hcolon'

theorem parse_of_not_timestampShape (h : ¬ TimestampShape s) :
    Timestamp.parse s = .error (Date.invalidFormat s) := by
  unfold TimestampShape at h
  unfold Timestamp.parse
  rw [if_pos (by tauto)]

/-- The texts of dates are those of the shape that name a day. -/
theorem exists_denotesDate_iff : (∃ n, DenotesDate s n) ↔ DateShape s ∧ NamesDay s := by
  constructor
  · rintro ⟨n, c, hyear, rfl, -⟩
    have hnames := namesDay_text hyear []
    rw [List.append_nil] at hnames
    exact ⟨⟨Date.length_text c, rfl, rfl⟩, hnames⟩
  · rintro ⟨⟨hlen, hdash, hdash'⟩, hnames⟩
    obtain ⟨c, hyear, hs⟩ := hnames.exists_text hlen.ge hdash hdash'
    rw [List.drop_eq_nil_of_le hlen.le, List.append_nil] at hs
    exact ⟨_, c, hyear, hs, rfl⟩

/-- The texts of timestamps are those of the shape that name a day and a time of day. -/
theorem exists_denotesTimestamp_iff :
    (∃ n, DenotesTimestamp s n) ↔ TimestampShape s ∧ NamesDay s ∧ NamesTime s := by
  constructor
  · rintro ⟨n, c, τ, hyear, rfl, -⟩
    have hlen : (Timestamp.text c τ).length = 19 := by simp [Timestamp.text]
    exact ⟨⟨hlen, rfl, rfl, rfl, rfl, rfl⟩, namesDay_text hyear _, namesTime_text c τ⟩
  · rintro ⟨⟨hlen, hdash, hdash', hblank, hcolon, hcolon'⟩, hday, htime⟩
    obtain ⟨c, hyear, hs⟩ := hday.exists_text (by omega) hdash hdash'
    obtain ⟨τ, hτ⟩ := htime.exists_text hlen hblank hcolon hcolon'
    rw [hτ] at hs
    exact ⟨_, c, τ, hyear, hs, rfl⟩

/-- **The temporal parsers** accept exactly the texts of dates, and of timestamps, and raise the
error of an invalid format for the others, where a text that passes the test of its length and
separators has the digits of a day that exists, and of a time of day. -/
theorem parse_accepts_iff (s : Bytes) :
    (AcceptsExactly Date.parse DenotesDate s ↔ (DateShape s → NamesDay s)) ∧
      (AcceptsExactly Timestamp.parse DenotesTimestamp s ↔
        (TimestampShape s → NamesDay s ∧ NamesTime s)) := by
  constructor
  · apply acceptsExactly_iff parse_of_dateShape parse_of_not_dateShape _ exists_denotesDate_iff
    rintro n ⟨c, hyear, rfl, rfl⟩
    exact Date.parse_text hyear
  · apply acceptsExactly_iff parse_of_timestampShape parse_of_not_timestampShape _
      exists_denotesTimestamp_iff
    rintro n ⟨c, τ, hyear, rfl, rfl⟩
    exact Timestamp.parse_text hyear τ

/-- A text of the shape that names no day is taken for one. -/
theorem not_acceptsExactly_date (hshape : DateShape s) (h : ¬ NamesDay s) :
    ¬ AcceptsExactly Date.parse DenotesDate s := by
  rintro ⟨hok, -⟩
  obtain ⟨n, hn⟩ := parse_of_dateShape hshape
  exact h (exists_denotesDate_iff.mp ⟨n, (hok n).mp hn⟩).2

/-- The thirteenth month is taken for the first of the next year, letters are taken for digits, and
the hour 24 is taken for the next day. -/
theorem not_acceptsExactly :
    Date.parse (ascii "2024-13-01") = Date.parse (ascii "2025-01-01") ∧
      ¬ AcceptsExactly Date.parse DenotesDate (ascii "2024-13-01") ∧
      ¬ AcceptsExactly Date.parse DenotesDate (ascii "year-mo-dy") ∧
      Timestamp.parse (ascii "2024-01-01 24:00:00") =
        Timestamp.parse (ascii "2024-01-02 00:00:00") ∧
      ¬ AcceptsExactly Timestamp.parse DenotesTimestamp (ascii "2024-01-01 24:00:00") := by
  refine ⟨by decide, ?_, ?_, by decide, ?_⟩
  · apply not_acceptsExactly_date ⟨by decide, by decide, by decide⟩
    intro h
    exact absurd h.month_le (by decide)
  · apply not_acceptsExactly_date ⟨by decide, by decide, by decide⟩
    intro h
    exact absurd h.yearDigits (by decide)
  · rintro ⟨hok, -⟩
    obtain ⟨n, hn⟩ := @parse_of_timestampShape (ascii "2024-01-01 24:00:00")
      ⟨by decide, by decide, by decide, by decide, by decide, by decide⟩
    have htime := (exists_denotesTimestamp_iff.mp ⟨n, (hok n).mp hn⟩).2.2
    exact absurd htime.hour_lt (by decide)

end ColumnarEngine
