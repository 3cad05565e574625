import ColumnarEngine.Types.Value

/-!
# Dates, timestamps and time units

`types/Date.h`, `types/Timestamp.h` and `types/TimeUnit.h`: a date is a number of days and a
timestamp a number of seconds since 1970-01-01. Division and remainder are C++'s, towards zero;
`int`, `int32_t` and `unsigned` variables take their values in 32 bits.
-/

namespace ColumnarEngine

open Found

/-- `enum class TimeUnitType`. -/
inductive TimeUnitType
  | year | month | day | hour | minute | second
  deriving DecidableEq, Repr

/-- `TimeUnit::ParseTimeUnit`. -/
def parseTimeUnit (unitStr : Bytes) : Except Bytes TimeUnitType :=
  if unitStr = ascii "year" then .ok .year
  else if unitStr = ascii "month" then .ok .month
  else if unitStr = ascii "day" then .ok .day
  else if unitStr = ascii "hour" then .ok .hour
  else if unitStr = ascii "minute" then .ok .minute
  else if unitStr = ascii "second" then .ok .second
  else .error (ascii "Unknown time unit: " ++ unitStr)

/-- The value of an `int` variable. -/
def toInt32 (n : ℤ) : ℤ := wrap 4 n

/-- The value of an `unsigned` variable. -/
def toUnsigned (n : ℤ) : ℤ := n % 2 ^ 32

/-- `c - '0'` of the character at an index, `char` signed. -/
def digitAt (s : Bytes) (i : ℕ) : ℤ := wrap 1 (s.getD i 0).toNat - 48

/-- The two digits at an index. -/
def int2At (s : Bytes) (i : ℕ) : ℤ := digitAt s i * 10 + digitAt s (i + 1)

/-- The four digits at the start. -/
def yearAt (s : Bytes) : ℤ :=
  digitAt s 0 * 1000 + digitAt s 1 * 100 + digitAt s 2 * 10 + digitAt s 3

namespace Date

/-- Days of a calendar date, from the year, month and day read from the text. -/
def ofCivil (year month day : ℤ) : ℤ :=
  let year := if month ≤ 2 then year - 1 else year
  let era := (if 0 ≤ year then year else year - 399).tdiv 400
  let yoe := toUnsigned (year - era * 400)
  let doy := toUnsigned
    ((153 * (month + (if 2 < month then -3 else 9)) + 2).tdiv 5 + day - 1)
  let doe := toUnsigned (yoe * 365 + yoe / 4 - yoe / 100 + doy)
  toInt32 (era * 146097 + toInt32 doe - 719468)

/-- The text of an invalid date or timestamp. -/
def invalidFormat (unit : Bytes) : Bytes := ascii "Invalid date format: " ++ unit

/-- `Date::Parse`. -/
def parse (unit : Bytes) : Except Bytes ℤ :=
  if unit.length ≠ 10 ∨ unit[4]? ≠ some 45 ∨ unit[7]? ≠ some 45 then .error (invalidFormat unit)
  else .ok (ofCivil (yearAt unit) (int2At unit 5) (int2At unit 8))

/-- `Date::Truncate`. -/
def truncate (totalDays : ℤ) (unit : TimeUnitType) : ℤ :=
  match unit with
  | .day | .hour | .minute | .second => totalDays
  | .month | .year =>
      let days := toInt32 (totalDays + 719468)
      let era := (if 0 ≤ days then days else days - 146096).tdiv 146097
      let doe := toUnsigned (days - era * 146097)
      let yoe := toUnsigned (doe - doe / 1460 + doe / 36524 - doe / 146096) / 365
      let y := toInt32 yoe + era * 400
      let doy := toUnsigned (doe - (365 * yoe + yoe / 4 - yoe / 100))
      let mp := toUnsigned (5 * doy + 2) / 153
      let d := toUnsigned (doy - toUnsigned (153 * mp + 2) / 5 + 1)
      let m := toUnsigned (mp + (if mp < 10 then 3 else -9))
      let year := if m ≤ 2 then y + 1 else y
      if unit = .month then toInt32 (totalDays - toInt32 d + 1)
      else
        let e := (if 0 ≤ year then year else year - 399).tdiv 400
        let ye := toUnsigned (year - e * 400)
        let de := toUnsigned (ye * 365 + ye / 4 - ye / 100 + 306)
        toInt32 (e * 146097 + toInt32 de - 719468)

/-- The first lines of `Date::Format`, which `Date::Truncate` repeats: the year, month and day. -/
def civil (totalDays : ℤ) : ℤ × ℤ × ℤ :=
  let days := toInt32 (totalDays + 719468)
  let era := (if 0 ≤ days then days else days - 146096).tdiv 146097
  let doe := toUnsigned (days - era * 146097)
  let yoe := toUnsigned (doe - doe / 1460 + doe / 36524 - doe / 146096) / 365
  let y := toInt32 yoe + era * 400
  let doy := toUnsigned (doe - (365 * yoe + yoe / 4 - yoe / 100))
  let mp := toUnsigned (5 * doy + 2) / 153
  let d := toUnsigned (doy - toUnsigned (153 * mp + 2) / 5 + 1)
  let m := toUnsigned (mp + (if mp < 10 then 3 else -9))
  let year := if m ≤ 2 then y + 1 else y
  (year, m, d)

/-- `(val % 10) + '0'`, stored in a `char`. -/
def digitChar (n : ℤ) : UInt8 := UInt8.ofNat ((n + 48) % 256).toNat

/-- `write_digit`: the last `len` digits of `val`, from the right. -/
def writeDigit (val : ℤ) (pos : ℕ) : ℕ → Bytes → Bytes
  | 0, res => res
  | len + 1, res =>
      writeDigit (val.tdiv 10) pos len (res.set (pos + len) (digitChar (val.tmod 10)))

/-- `Date::Format`. -/
def format (days : ℤ) : Bytes :=
  let (year, m, d) := civil days
  writeDigit (toInt32 d) 8 2
    (writeDigit (toInt32 m) 5 2 (writeDigit year 0 4 (ascii "0000-00-00")))

end Date

namespace Timestamp

/-- `Timestamp::Parse`. -/
def parse (unit : Bytes) : Except Bytes ℤ :=
  if unit.length ≠ 19 ∨ unit[4]? ≠ some 45 ∨ unit[7]? ≠ some 45 ∨ unit[10]? ≠ some 32 ∨
      unit[13]? ≠ some 58 ∨ unit[16]? ≠ some 58 then .error (Date.invalidFormat unit)
  else
    let days := Date.ofCivil (yearAt unit) (int2At unit 5) (int2At unit 8)
    let seconds := int2At unit 11 * 3600 + int2At unit 14 * 60 + int2At unit 17
    .ok (days * 86400 + seconds)

/-- `seconds_in_day`: the seconds since midnight. -/
def secondsInDay (totalSeconds : ℤ) : ℤ :=
  let seconds := totalSeconds.tmod 86400
  if seconds < 0 then seconds + 86400 else seconds

/-- `write_digit` of `Timestamp::Format`: two digits. -/
def writeTwo (val : ℤ) (pos : ℕ) (res : Bytes) : Bytes :=
  (res.set pos (Date.digitChar (val.tdiv 10))).set (pos + 1) (Date.digitChar (val.tmod 10))

/-- `Timestamp::Format`. -/
def format (totalSeconds : ℤ) : Bytes :=
  let days := totalSeconds.tdiv 86400
  let seconds := totalSeconds.tmod 86400
  let days := if seconds < 0 then days - 1 else days
  let seconds := if seconds < 0 then seconds + 86400 else seconds
  let res := Date.format (toInt32 days) ++ ascii " 00:00:00"
  writeTwo (seconds.tmod 60) 17
    (writeTwo ((seconds.tmod 3600).tdiv 60) 14 (writeTwo (seconds.tdiv 3600) 11 res))

/-- `Timestamp::ExtractMinute`. -/
def extractMinute (totalSeconds : ℤ) : ℤ := ((secondsInDay totalSeconds).tmod 3600).tdiv 60

/-- `Timestamp::Truncate`. -/
def truncate (totalSeconds : ℤ) (part : TimeUnitType) : ℤ :=
  match part with
  | .minute => totalSeconds - (secondsInDay totalSeconds).tmod 60
  | .hour => totalSeconds - (secondsInDay totalSeconds).tmod 3600
  | .day => totalSeconds - secondsInDay totalSeconds
  | .month => Date.truncate (toInt32 (totalSeconds.tdiv 86400)) .month * 86400
  | .year => Date.truncate (toInt32 (totalSeconds.tdiv 86400)) .year * 86400
  | .second => totalSeconds

/-- The seconds since midnight are the mathematical remainder. -/
theorem secondsInDay_eq (t : ℤ) : secondsInDay t = t % 86400 := by
  unfold secondsInDay
  have hmod := Int.tmod_add_mul_tdiv t 86400
  have hlt := Int.tmod_lt_of_pos t (b := 86400) (by decide)
  have hgt := Int.lt_tmod_of_pos t (b := 86400) (by decide)
  dsimp only
  split_ifs <;> omega

end Timestamp

end ColumnarEngine
