import ColumnarEngine.Column.Column
import ColumnarEngine.Column.IntegerText
import ColumnarEngine.Plan.Expressions

/-!
# Printing values

`ExecutionHelper::FormatValue` of `execution/ExecutionHelper.h`. A 128-bit integer is printed by a
loop that peels digits off the number without its sign, last digit first, and reverses them. The
text is the decimal text of the integer, and the parser of `INT128` reads it back, for every integer
but the smallest, which cannot be negated (`formatValue_int128_iff`).
-/

namespace ColumnarEngine

open Found

/-! ## `FormatValue` -/

/-- The loop over the digits of an `Int128`, at most `fuel` times. -/
def peelDigits : ℕ → ℤ → Bytes → Bytes
  | 0, _, res => res
  | fuel + 1, val, res =>
      if 0 < val then peelDigits fuel (val.tdiv 10) (res ++ ascii s!"{val.tmod 10}") else res

/-- The branch of `FormatValue` for `INT128`. A negation that leaves the type is undefined. -/
def formatInt128 (val : ℤ) : Except Fault Bytes :=
  if val = 0 then .ok (ascii "0")
  else
    let neg : Bool := val < 0
    if neg ∧ ¬ InWidth 16 (-val) then .error .undefined
    else
      let val := if neg then -val else val
      let res := peelDigits val.toNat val []
      .ok (if neg then res ++ ascii "-" else res).reverse

/-- `ExecutionHelper::FormatValue`; an index past the end of the column is undefined. -/
def formatValue (P : Platform) (col : Column) (index : ℕ) : Except Fault Bytes :=
  match col.data[index]? with
  | none => .error .undefined
  | some (.str s) => .ok s
  | some (.int n) =>
      match col.type with
      | .char => .ok (encodeInt 1 n)
      | .date => .ok (Date.format n)
      | .timestamp => .ok (Timestamp.format n)
      | .int128 => formatInt128 n
      | type => .ok (Value.toString P type (.int n))

/-! ## Decimal text -/

/-- The decimal text of an integer: a minus if it is negative, and its digits without leading
zeros. -/
def decimalText (n : ℤ) : Bytes := ascii s!"{n}"

theorem ascii_append (s t : String) : ascii (s ++ t) = ascii s ++ ascii t := by
  unfold ascii
  rw [String.toList_append, List.map_append]

theorem ascii_repr (n : ℕ) : ascii n.repr = digits n := by
  unfold ascii digits
  rw [Nat.toList_repr]

/-- The text of an integer is its sign and the digits of its absolute value. -/
theorem decimalText_eq (n : ℤ) :
    decimalText n = if n < 0 then minus :: digits n.natAbs else digits n.natAbs := by
  have hrepr : decimalText n = ascii n.repr := rfl
  rw [hrepr, Int.repr_eq_if]
  by_cases hneg : n < 0
  · have habs : (-n).toNat = n.natAbs := by omega
    rw [if_neg (by omega), if_pos hneg, ascii_append, ascii_repr, habs]
    rfl
  · have habs : n.toNat = n.natAbs := by omega
    rw [if_pos (by omega), if_neg hneg, ascii_repr, habs]

/-- A digit as text. -/
theorem ascii_digit {d : ℤ} (hd : 0 ≤ d) (hd' : d < 10) : ascii s!"{d}" = [digitOf d.toNat] := by
  interval_cases d <;> decide

/-- The loop appends the digits of a number, the last first. -/
theorem peelDigits_eq {fuel n : ℕ} (hfuel : n ≤ fuel) (hn : 0 < n) (res : Bytes) :
    peelDigits fuel n res = res ++ (digits n).reverse := by
  induction fuel generalizing n res with
  | zero => omega
  | succ fuel ih =>
      have hpos : (0 : ℤ) < n := by exact_mod_cast hn
      have hdiv : (n : ℤ).tdiv 10 = (n / 10 : ℕ) := rfl
      have hmod : (n : ℤ).tmod 10 = (n % 10 : ℕ) := rfl
      have hdigit : ascii s!"{((n % 10 : ℕ) : ℤ)}" = [digitOf (n % 10)] := by
        apply ascii_digit
        · omega
        · omega
      unfold peelDigits
      rw [if_pos hpos, hdiv, hmod, hdigit]
      by_cases hlast : n < 10
      · have hzero : n / 10 = 0 := Nat.div_eq_of_lt hlast
        rw [digits_eq n, if_pos hlast, hzero, List.nil_append, List.reverse_singleton]
        cases fuel with
        | zero => rfl
        | succ fuel => rfl
      · rw [digits_eq n, if_neg hlast, List.reverse_append, List.reverse_singleton,
          ← List.append_assoc]
        apply ih
        · omega
        · omega

/-- The digits of a number are digits. -/
theorem all_isDigit_digits (n : ℕ) : (digits n).all isDigit := by
  rw [List.all_eq_true]
  intro c hc
  exact (isDigit_iff c).mpr (mem_digits hc)

/-! ## Printing and reading back -/

/-- An `Int128` that can be negated is printed as its decimal text. -/
theorem formatInt128_eq {v : ℤ} (hneg : InWidth 16 (-v)) :
    formatInt128 v = .ok (decimalText v) := by
  unfold formatInt128
  by_cases hzero : v = 0
  · rw [if_pos hzero, hzero]
    rfl
  · have hloop := peelDigits_eq le_rfl (Int.natAbs_pos.mpr hzero) []
    rw [List.nil_append] at hloop
    rw [if_neg hzero, decimalText_eq]
    by_cases hlt : v < 0
    · have habs : -v = v.natAbs := by omega
      have htext : (digits v.natAbs).reverse ++ ascii "-" =
          (minus :: digits v.natAbs).reverse := List.reverse_cons.symm
      simp only [hlt, hneg, decide_true, not_true_eq_false, and_false, if_false, if_true]
      rw [habs, Int.toNat_natCast, hloop, htext, List.reverse_reverse]
    · have habs : v = v.natAbs := by omega
      have hnat : v.toNat = v.natAbs := by omega
      simp only [hlt, decide_false, Bool.false_eq_true, false_and, if_false]
      rw [hnat]
      conv => lhs; arg 1; arg 1; arg 2; rw [habs]
      rw [hloop, List.reverse_reverse]

/-- The decimal text of a number is a text of digits behind its sign. -/
theorem withoutMinus_decimalText (v : ℤ) : withoutMinus (decimalText v) = digits v.natAbs := by
  rw [decimalText_eq]
  split_ifs
  · rfl
  · apply if_neg
    apply head?_ne_minus
    exact all_isDigit_digits _

/-- The decimal text of an integer writes it. -/
theorem signedValue_decimalText (v : ℤ) : signedValue (decimalText v) = v := by
  have hvalue : digitsValue (digits v.natAbs) = v.natAbs := numberFrom_digits _
  unfold signedValue
  rw [withoutMinus_decimalText, hvalue, decimalText_eq]
  by_cases hlt : v < 0
  · have hhead : (minus :: digits v.natAbs).head? = some minus := rfl
    rw [if_pos hlt, if_pos hhead]
    omega
  · have hhead := head?_ne_minus (all_isDigit_digits v.natAbs)
    rw [if_neg hlt, if_neg hhead]
    omega

/-- The decimal text of an integer that can be negated is read back. -/
theorem int128FromString_decimalText {v : ℤ} (h : v.natAbs < 2 ^ 127) :
    ColumnType.int128FromString (decimalText v) = .ok v := by
  have hall := all_isDigit_digits v.natAbs
  have hvalue : digitsValue (digits v.natAbs) = v.natAbs := numberFrom_digits _
  have hne : decimalText v ≠ [] := by
    intro hnil
    have hbody := withoutMinus_decimalText v
    rw [hnil] at hbody
    exact digits_ne_nil _ hbody.symm
  rw [int128FromString_eq hne, withoutMinus_decimalText,
    List.takeWhile_eq_self_iff.mpr (List.all_eq_true.mp hall), hvalue, if_neg (Nat.not_le.mpr h),
    if_pos hall, signedValue_decimalText]

/-- **128-bit integers print and parse back**: the text printed for an `Int128` is its decimal text,
and the parser reads it back, for every value but the smallest. -/
theorem formatValue_int128_iff (P : Platform) {col : Column} (htype : col.type = .int128)
    {index : ℕ} {v : ℤ} (hv : col.data[index]? = some (.int v)) :
    (formatValue P col index = .ok (decimalText v) ∧
      ColumnType.int128FromString (decimalText v) = .ok v) ↔ v ≠ -2 ^ 127 := by
  have hformat : formatValue P col index = formatInt128 v := by
    unfold formatValue
    rw [hv, htype]
  have hwidth : InWidth 16 v := by
    have htyped := col.typed _ (List.mem_of_getElem? hv)
    rw [htype] at htyped
    exact htyped.2
  rw [hformat]
  constructor
  · rintro ⟨hprint, -⟩ rfl
    have hundefined : formatInt128 (-2 ^ 127) = .error .undefined := by decide
    cases hundefined.symm.trans hprint
  · intro hne
    unfold InWidth at hwidth
    have hneg : InWidth 16 (-v) := by
      unfold InWidth
      omega
    exact ⟨formatInt128_eq hneg, int128FromString_decimalText (by omega)⟩

/-- A negative number and a column that holds it. -/
theorem formatValue_int128_negative :
    formatValue .integral (.ofValues .int128 [.int (-1203)]) 0 = .ok (ascii "-1203") ∧
      ColumnType.int128FromString (ascii "-1203") = .ok (-1203) :=
  (formatValue_int128_iff .integral (v := -1203) rfl (by decide)).mpr (by decide)

/-- The smallest `Int128`, in a column, is negated to print it. -/
theorem formatValue_int128_smallest :
    (Column.ofValues .int128 [.int (-2 ^ 127)]).data = [.int (-2 ^ 127)] ∧
      formatValue .integral (.ofValues .int128 [.int (-2 ^ 127)]) 0 = .error .undefined ∧
      ColumnType.int128FromString (decimalText (-2 ^ 127)) = .error .undefined := by
  decide

end ColumnarEngine
