import ColumnarEngine.Found.TwosComplement

/-!
# Column types and the values they hold

`ColumnType` is the enumeration of `types/ColumnType.h`. A `Value` is one element of a column: an
integer for every type of `FOR_NUMERIC_COLUMN_TYPE`, a byte string for `STRING`. `Value.HasType`
says that the value is one of the type's C++ `ValueType`: integers are taken in the width of the
type (`elemSize` bytes, `char` signed as on x86-64), and the length of a string is a `size_t`. The
values of `FLOAT`, `DOUBLE` and `LONGDOUBLE` columns are the bit patterns, and whatever the engine
does with them beyond copying goes through a `Platform`, as does RE2.
-/

namespace ColumnarEngine

open Found

/-- Byte strings: `std::string`, `std::string_view` and `std::vector<char>`. -/
abbrev Bytes := List UInt8

/-- A string literal of the source. -/
def ascii (s : String) : Bytes := s.toList.map fun c => UInt8.ofNat c.toNat

/-- How a call may fail to return: by an exception with a text, or by undefined behaviour. -/
inductive Fault
  | exception (text : Bytes)
  | undefined
  deriving DecidableEq, Repr

/-- `enum class ColumnType : uint8_t`, in declaration order. -/
inductive ColumnType
  | int16 | int32 | int64 | int128 | float | double | longdouble | char | string | date | timestamp
  deriving DecidableEq, Repr, Inhabited

namespace ColumnType

/-- `sizeof(CLASS_TYPE::ValueType)` for the classes of `FOR_NUMERIC_COLUMN_TYPE`; strings have no
fixed element size and keep the source's initial `elem_size = 0`. -/
def elemSize : ColumnType → ℕ
  | int16 => 2
  | int32 => 4
  | int64 => 8
  | int128 => 16
  | float => 4
  | double => 8
  | longdouble => 16
  | char => 1
  | string => 0
  | date => 4
  | timestamp => 8

/-- The floating-point types. -/
def isFloating : ColumnType → Bool
  | float | double | longdouble => true
  | _ => false

/-- All types, in declaration order (the order of the `uint8_t` codes). -/
def all : List ColumnType :=
  [int16, int32, int64, int128, float, double, longdouble, char, string, date, timestamp]

/-- `static_cast<uint8_t>(type)`. -/
def code (t : ColumnType) : ℕ := all.idxOf t

/-- `static_cast<ColumnType>(code)`, for the codes of the enumeration. -/
def ofCode (n : ℕ) : Option ColumnType := all[n]?

/-- The name of a type in `FOR_EACH_COLUMN_TYPE`. -/
def name : ColumnType → Bytes
  | int16 => ascii "INT16"
  | int32 => ascii "INT32"
  | int64 => ascii "INT64"
  | int128 => ascii "INT128"
  | float => ascii "FLOAT"
  | double => ascii "DOUBLE"
  | longdouble => ascii "LONGDOUBLE"
  | char => ascii "CHAR"
  | string => ascii "STRING"
  | date => ascii "DATE"
  | timestamp => ascii "TIMESTAMP"

/-- The type of a name, in `FOR_EACH_COLUMN_TYPE`. -/
def ofName (name : Bytes) : Option ColumnType := all.find? fun t => t.name = name

@[simp] theorem ofCode_code (t : ColumnType) : ofCode t.code = some t := by cases t <;> rfl

theorem code_lt (t : ColumnType) : t.code < 256 := by cases t <;> decide

theorem elemSize_pos {t : ColumnType} (h : t ≠ string) : 0 < t.elemSize := by
  cases t <;> simp_all [elemSize]

end ColumnType

/-- One element of a column. -/
inductive Value
  | int (n : ℤ)
  | str (s : Bytes)
  deriving DecidableEq, Repr

namespace Value

instance : Inhabited Value := ⟨.int 0⟩

/-- The value is one of the type's `ValueType`. -/
def HasType : Value → ColumnType → Prop
  | .int n, t => t ≠ .string ∧ InWidth t.elemSize n
  | .str s, t => t = .string ∧ s.length < 256 ^ 8

instance (v : Value) (t : ColumnType) : Decidable (v.HasType t) := by
  cases v <;> (unfold HasType; infer_instance)

/-- The conversion to a type's `ValueType` that storing a value performs: integers wrap to the
width, strings are kept. The mixed cases and strings that no memory holds do not occur. -/
def conv (t : ColumnType) : Value → Value
  | .int n => if t = .string then .str [] else .int (wrap t.elemSize n)
  | .str s => if t = .string then .str (if s.length < 256 ^ 8 then s else []) else .int 0

/-- What is stored has the type. -/
theorem hasType_conv (t : ColumnType) (v : Value) : (conv t v).HasType t := by
  cases v with
  | int n =>
      by_cases ht : t = .string
      · simp [conv, ht, HasType]
      · simp [conv, ht, HasType, inWidth_wrap]
  | str s =>
      by_cases ht : t = .string
      · rw [conv, if_pos ht]
        split_ifs with hs
        · exact ⟨ht, hs⟩
        · exact ⟨ht, by simp⟩
      · simp [conv, ht, HasType, inWidth_zero]

/-- Storing a value of the type does not change it. -/
theorem conv_eq_self {t : ColumnType} {v : Value} (h : v.HasType t) : conv t v = v := by
  cases v with
  | int n => simp [conv, h.1, wrap_eq_self h.2]
  | str s => rw [conv, if_pos h.1, if_pos h.2]

/-- `StateType{}`: the value-initialised element of a type. -/
def zero (t : ColumnType) : Value := if t = .string then .str [] else .int 0

/-- Position in the order in which integers compare by value and strings as unsigned bytes. -/
def toOrder : Value → ℤ ⊕ₗ List ℕ
  | .int n => toLex (.inl n)
  | .str s => toLex (.inr (s.map UInt8.toNat))

theorem toOrder_injective : Function.Injective toOrder := by
  intro a b h
  cases a with
  | int m => cases b <;> simp_all [toOrder]
  | str s =>
      cases b with
      | int n => simp [toOrder] at h
      | str s' =>
          have hmap : s.map UInt8.toNat = s'.map UInt8.toNat := by simpa [toOrder] using h
          rw [List.map_injective_iff.mpr (fun _ _ => UInt8.toNat_inj.mp) hmap]

/-- The order of the `operator<` of the non-floating types, over all values. -/
instance : LinearOrder Value := LinearOrder.lift' toOrder toOrder_injective

theorem int_lt_int {m n : ℤ} : Value.int m < Value.int n ↔ m < n :=
  Sum.Lex.inl_lt_inl_iff

theorem str_lt_str {s s' : Bytes} :
    Value.str s < Value.str s' ↔ s.map UInt8.toNat < s'.map UInt8.toNat :=
  Sum.Lex.inr_lt_inr_iff

theorem int_lt_str (n : ℤ) (s : Bytes) : Value.int n < Value.str s := Sum.Lex.inl_lt_inr _ _

theorem not_str_lt_int (s : Bytes) (n : ℤ) : ¬ Value.str s < Value.int n := Sum.Lex.not_inr_lt_inl

end Value

/-- What the engine takes from outside its sources: floating-point arithmetic, comparison and text
on bit patterns, and RE2. -/
structure Platform where
  /-- `operator<` of a floating type. -/
  floatLt : ColumnType → ℤ → ℤ → Bool
  /-- `operator==` of a floating type. -/
  floatEq : ColumnType → ℤ → ℤ → Bool
  /-- `operator+` of a floating type. -/
  floatAdd : ColumnType → ℤ → ℤ → ℤ
  /-- Arithmetic conversion from one type to another, one of them floating. -/
  floatConvert : ColumnType → ColumnType → ℤ → ℤ
  /-- `ComputeAvg`: the `long double` average of a sum (of the given state type) and a count. -/
  computeAvg : ColumnType → ℤ → ℤ → ℤ
  /-- `std::stof`, `std::stod`, `std::stold`. -/
  parseFloat : ColumnType → Bytes → Option ℤ
  /-- `std::to_string` of a floating value. -/
  showFloat : ColumnType → ℤ → Bytes
  /-- `re2::RE2::GlobalReplace(&str, pattern, replacement)`. -/
  globalReplace : Bytes → Bytes → Bytes → Bytes

/-- A platform for data without floating-point columns and regular expressions. -/
def Platform.integral : Platform where
  floatLt _ _ _ := false
  floatEq _ _ _ := false
  floatAdd _ m _ := m
  floatConvert _ _ n := n
  computeAvg _ sum count := sum / count
  parseFloat _ _ := none
  showFloat _ _ := []
  globalReplace _ _ s := s

namespace Value

variable (P : Platform)

/-- `a < b` on two elements of a column of type `t`. -/
def less (t : ColumnType) : Value → Value → Bool
  | .int m, .int n => if t.isFloating then P.floatLt t m n else decide (m < n)
  | .str s, .str s' => decide (s.map UInt8.toNat < s'.map UInt8.toNat)
  | .int _, .str _ => true
  | .str _, .int _ => false

/-- `a == b` on two elements of a column of type `t`. -/
def equal (t : ColumnType) : Value → Value → Bool
  | .int m, .int n => if t.isFloating then P.floatEq t m n else decide (m = n)
  | a, b => decide (a = b)

/-- Outside the floating types `<` is the linear order on values. -/
theorem less_iff {t : ColumnType} (ht : t.isFloating = false) (a b : Value) :
    less P t a b = true ↔ a < b := by
  cases a <;> cases b <;>
    simp [less, ht, int_lt_int, str_lt_str, int_lt_str, not_str_lt_int]

/-- Outside the floating types `==` is equality. -/
theorem equal_iff {t : ColumnType} (ht : t.isFloating = false) (a b : Value) :
    equal P t a b = true ↔ a = b := by
  cases a <;> cases b <;> simp [equal, ht]

/-- An element of type `src` assigned to a variable of type `dst`. -/
def store (src dst : ColumnType) : Value → Value
  | .int n =>
      if src ≠ dst ∧ (src.isFloating || dst.isFloating) then
        conv dst (.int (P.floatConvert src dst n))
      else conv dst (.int n)
  | .str s => conv dst (.str s)

/-- `result += value` on two values of type `t`. -/
def plus (t : ColumnType) : Value → Value → Value
  | .int m, .int n => conv t (.int (if t.isFloating then P.floatAdd t m n else m + n))
  | a, _ => a

/-- `value.find(pattern) != std::string::npos` of two strings. -/
def contains : Value → Value → Bool
  | .str s, .str pattern => decide (pattern <:+: s)
  | _, _ => false

/-- `String::Length` of a string. -/
def length : Value → ℕ
  | .str s => s.length
  | .int _ => 0

/-- `re2::RE2::GlobalReplace` on a string. -/
def globalReplace (pattern replacement : Bytes) : Value → Value
  | .str s => .str (P.globalReplace pattern replacement s)
  | v => v

/-- The integer an element holds. -/
def toInt : Value → ℤ
  | .int n => n
  | .str _ => 0

/-- Assigning within one type changes no value of the type. -/
theorem store_self {t : ColumnType} {v : Value} (hv : v.HasType t) : store P t t v = v := by
  cases v with
  | int n => simpa [store] using conv_eq_self hv
  | str s => exact conv_eq_self hv

/-- Between integer types assigning wraps. -/
theorem store_int {src dst : ColumnType} (hs : src.isFloating = false) (hd : dst.isFloating = false)
    (hstr : dst ≠ .string) (n : ℤ) : store P src dst (.int n) = .int (wrap dst.elemSize n) := by
  simp [store, hs, hd, conv, hstr]

/-- Integer addition wraps. -/
theorem plus_int {t : ColumnType} (ht : t.isFloating = false) (hstr : t ≠ .string) (m n : ℤ) :
    plus P t (.int m) (.int n) = .int (wrap t.elemSize (m + n)) := by
  simp [plus, ht, conv, hstr]

end Value

end ColumnarEngine
