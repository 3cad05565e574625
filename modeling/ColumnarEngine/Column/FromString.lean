import ColumnarEngine.Column.Column
import ColumnarEngine.Types.Timestamp

/-!
# Elements from text

What the builders of `column/NumericColumn.h`, `column/CharColumn.h`, `column/StringColumn.h` and
`column/TemporalColumn.h` make of a field: `FromString` of the numeric types, the single character
of a `CHAR`, `Parse` of the temporal types. The text of an assertion stands without the file and
line in front of it.
-/

namespace ColumnarEngine

open Found

/-- `'-'`. -/
def minus : UInt8 := 45

/-- The character is a digit. -/
def isDigit (c : UInt8) : Bool := 48 ≤ c ∧ c ≤ 57

/-- The number that digits write. -/
def digitsValue (digits : Bytes) : ℕ := digits.foldl (fun n c => n * 10 + (c.toNat - 48)) 0

/-- `std::from_chars` for a signed type of `size` bytes, where it takes the whole text: a minus or
none, one or more digits, and a number in range. -/
def fromChars (size : ℕ) (value : Bytes) : Option ℤ :=
  let negative := value.head? = some minus
  let digits := if negative then value.tail else value
  let n : ℤ := if negative then -digitsValue digits else digitsValue digits
  if digits ≠ [] ∧ digits.all isDigit ∧ InWidth size n then some n else none

namespace ColumnType

/-- `FromString` of `int16_t`, `int32_t` and `int64_t`. -/
def integerFromString (t : ColumnType) (value : Bytes) : Except Fault ℤ :=
  match fromChars t.elemSize value with
  | some parsed => .ok parsed
  | none => .error (.exception (ascii "Invalid " ++ t.name ++ ascii " value: " ++ value))

/-- The body of the loop of `FromString` of `Int128`; leaving the range of the type is undefined. -/
def int128Step (value : Bytes) (result : ℤ) (c : UInt8) : Except Fault ℤ :=
  if isDigit c then
    let result := result * 10 + (c.toNat - 48)
    if InWidth 16 result then .ok result else .error .undefined
  else .error (.exception (ascii "Invalid integer value: " ++ value))

/-- `FromString` of `Int128`. The first character is read of every text. -/
def int128FromString (value : Bytes) : Except Fault ℤ :=
  match value with
  | [] => .error .undefined
  | c :: rest =>
      if c = minus then (rest.foldlM (int128Step value) 0).map fun result => -result
      else value.foldlM (int128Step value) 0

/-- `FromString` of a floating type, through `std::stof`, `std::stod` or `std::stold`. -/
def floatFromString (P : Platform) (t : ColumnType) (function : Bytes) (value : Bytes) :
    Except Fault ℤ :=
  match P.parseFloat t value with
  | some parsed => .ok parsed
  | none => .error (.exception function)

/-- The only character of a text. -/
def charFromString (value : Bytes) : Except Fault ℤ :=
  match value with
  | [c] => .ok (wrap 1 c.toNat)
  | _ => .error (.exception (ascii "condition 'val.size() == 1' is not satistfied"))

/-- The element that `AddBatch` of a builder makes of a field. -/
def fromString (P : Platform) (t : ColumnType) (value : Bytes) : Except Fault Value :=
  match t with
  | int16 | int32 | int64 => (integerFromString t value).map .int
  | int128 => (int128FromString value).map .int
  | float => (floatFromString P t (ascii "stof") value).map .int
  | double => (floatFromString P t (ascii "stod") value).map .int
  | longdouble => (floatFromString P t (ascii "stold") value).map .int
  | char => (charFromString value).map .int
  | string => .ok (.str value)
  | date => ((Date.parse value).mapError Fault.exception).map .int
  | timestamp => ((Timestamp.parse value).mapError Fault.exception).map .int

end ColumnType

end ColumnarEngine
