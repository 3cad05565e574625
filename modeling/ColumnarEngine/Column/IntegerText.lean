import ColumnarEngine.Column.FromString
import ColumnarEngine.Found.Decimal

/-!
# Which texts are integers

`Writes text n` says that a text writes an integer: an optional minus and one or more digits. The
parsers of `INT16`, `INT32` and `INT64` accept exactly the texts that write an integer of the type
(`integerFromString_parsesRight`). The loop of the `INT128` parser does so as long as it has a
character to read and the number does not grow beyond the type (`int128FromString_parsesRight_iff`).
-/

namespace ColumnarEngine

open Found

/-! ## Texts of integers -/

/-- The text is a minus or none, and one or more digits, and writes the integer. -/
def Writes (text : Bytes) (n : ℤ) : Prop :=
  ∃ digits : Bytes, digits ≠ [] ∧ digits.all isDigit ∧
    (text = digits ∧ n = (digitsValue digits : ℤ) ∨
      text = minus :: digits ∧ n = -(digitsValue digits : ℤ))

/-- The text behind a minus, if it starts with one. -/
def withoutMinus (text : Bytes) : Bytes := if text.head? = some minus then text.tail else text

/-- The integer that a text writes if it writes one. -/
def signedValue (text : Bytes) : ℤ :=
  if text.head? = some minus then -(digitsValue (withoutMinus text) : ℤ)
  else (digitsValue (withoutMinus text) : ℤ)

/-- The parser accepts exactly the texts that write an integer of `size` bytes, as that integer,
and throws for the others. -/
def ParsesRight (size : ℕ) (parse : Bytes → Except Fault ℤ) (text : Bytes) : Prop :=
  (∀ n, parse text = .ok n ↔ Writes text n ∧ InWidth size n) ∧
    ((¬ ∃ n, Writes text n ∧ InWidth size n) → ∃ error, parse text = .error (.exception error))

/-- A text on which the parser is undefined is neither accepted nor refused. -/
theorem not_parsesRight_of_undefined {size : ℕ} {parse : Bytes → Except Fault ℤ} {text : Bytes}
    (h : parse text = .error .undefined) : ¬ ParsesRight size parse text := by
  rintro ⟨hok, hthrows⟩
  rw [h] at hok hthrows
  obtain ⟨error, herror⟩ := hthrows fun ⟨n, hn⟩ => by cases (hok n).mpr hn
  cases herror

theorem isDigit_iff (c : UInt8) : isDigit c = true ↔ 48 ≤ c ∧ c ≤ 57 := by
  unfold isDigit
  rw [decide_eq_true_iff]

/-- A text of digits does not start with a minus. -/
theorem head?_ne_minus {digits : Bytes} (h : digits.all isDigit) : digits.head? ≠ some minus := by
  intro hhead
  obtain ⟨rest, rfl⟩ := List.head?_eq_some_iff.mp hhead
  rw [List.all_cons] at h
  exact absurd (Bool.and_eq_true_iff.mp h).1 (by decide)

/-- A text writes an integer if there are digits, and only digits, behind its sign. -/
theorem writes_iff {text : Bytes} {n : ℤ} :
    Writes text n ↔
      withoutMinus text ≠ [] ∧ (withoutMinus text).all isDigit ∧ n = signedValue text := by
  constructor
  · rintro ⟨digits, hne, hall, ⟨rfl, hn⟩ | ⟨rfl, hn⟩⟩
    · have hhead := head?_ne_minus hall
      have hbody : withoutMinus text = text := if_neg hhead
      unfold signedValue
      rw [if_neg hhead, hbody]
      exact ⟨hne, hall, hn⟩
    · exact ⟨hne, hall, hn⟩
  · rintro ⟨hne, hall, hn⟩
    refine ⟨withoutMinus text, hne, hall, ?_⟩
    unfold signedValue at hn
    split_ifs at hn with hhead
    · obtain ⟨rest, rfl⟩ := List.head?_eq_some_iff.mp hhead
      exact Or.inr ⟨rfl, hn⟩
    · have hbody : withoutMinus text = text := if_neg hhead
      exact Or.inl ⟨hbody.symm, hn⟩

/-! ## The parsers through `std::from_chars` -/

/-- `std::from_chars` accepts the texts of integers in range. -/
theorem fromChars_eq_some {size : ℕ} {text : Bytes} {n : ℤ} :
    fromChars size text = some n ↔ Writes text n ∧ InWidth size n := by
  have hunfold : fromChars size text =
      if withoutMinus text ≠ [] ∧ (withoutMinus text).all isDigit ∧ InWidth size (signedValue text)
      then some (signedValue text) else none := rfl
  rw [writes_iff, hunfold, Option.ite_none_right_eq_some, Option.some_inj]
  constructor
  · rintro ⟨⟨hne, hall, hfits⟩, rfl⟩
    exact ⟨⟨hne, hall, rfl⟩, hfits⟩
  · rintro ⟨⟨hne, hall, rfl⟩, hfits⟩
    exact ⟨⟨hne, hall, hfits⟩, rfl⟩

/-- The parsers of `INT16`, `INT32` and `INT64` are right on every text. -/
theorem integerFromString_parsesRight (t : ColumnType) (text : Bytes) :
    ParsesRight t.elemSize t.integerFromString text := by
  unfold ParsesRight ColumnType.integerFromString
  simp only [← fromChars_eq_some]
  cases fromChars t.elemSize text with
  | none => simp
  | some parsed => simp

/-! ## The loop of the parser of `INT128` -/

theorem inWidth_sixteen {n : ℕ} : InWidth 16 (n : ℤ) ↔ n < 2 ^ 127 := by
  unfold InWidth
  omega

/-- One digit, behind those of a number. -/
theorem int128Step_digit (value : Bytes) (n : ℕ) {c : UInt8} (hdigit : isDigit c) :
    ColumnType.int128Step value n c =
      if n * 10 + (c.toNat - 48) < 2 ^ 127 then .ok ((n * 10 + (c.toNat - 48) : ℕ) : ℤ)
      else .error .undefined := by
  have hle : 48 ≤ c.toNat := ((isDigit_iff c).mp hdigit).1
  have hcast : (n : ℤ) * 10 + ((c.toNat : ℤ) - 48) = (n * 10 + (c.toNat - 48) : ℕ) := by omega
  unfold ColumnType.int128Step
  rw [if_pos hdigit, hcast]
  simp only [inWidth_sixteen]

/-- The loop reads digits as long as the number fits, and throws at another character. -/
theorem foldlM_int128Step (value : Bytes) {n : ℕ} (hn : n < 2 ^ 127) (text : Bytes) :
    text.foldlM (ColumnType.int128Step value) (n : ℤ) =
      if 2 ^ 127 ≤ numberFrom n (text.takeWhile isDigit) then .error .undefined
      else if text.all isDigit then .ok (numberFrom n text : ℤ)
      else .error (.exception (ascii "Invalid integer value: " ++ value)) := by
  induction text generalizing n with
  | nil =>
      have hfits : ¬ 2 ^ 127 ≤ numberFrom n [] := Nat.not_le.mpr hn
      rw [List.takeWhile_nil, if_neg hfits]
      rfl
  | cons c text ih =>
      rw [List.foldlM_cons, List.takeWhile_cons, List.all_cons]
      by_cases hdigit : isDigit c = true
      · rw [int128Step_digit value n hdigit, if_pos hdigit, hdigit, Bool.true_and, numberFrom_cons,
          numberFrom_cons]
        by_cases hfits : n * 10 + (c.toNat - 48) < 2 ^ 127
        · rw [if_pos hfits]
          exact ih hfits
        · have hgrown := le_numberFrom (n * 10 + (c.toNat - 48)) (text.takeWhile isDigit)
          rw [if_neg hfits, if_pos (by omega)]
          rfl
      · have hfits : ¬ 2 ^ 127 ≤ numberFrom n [] := Nat.not_le.mpr hn
        unfold ColumnType.int128Step
        rw [if_neg hdigit, if_neg hdigit, if_neg hfits, Bool.eq_false_iff.mpr hdigit,
          Bool.false_and]
        rfl

/-- The parser of `INT128`, on every text but the empty one. -/
theorem int128FromString_eq {text : Bytes} (hne : text ≠ []) :
    ColumnType.int128FromString text =
      if 2 ^ 127 ≤ digitsValue ((withoutMinus text).takeWhile isDigit) then .error .undefined
      else if (withoutMinus text).all isDigit then .ok (signedValue text)
      else .error (.exception (ascii "Invalid integer value: " ++ text)) := by
  have hloop : (withoutMinus text).foldlM (ColumnType.int128Step text) 0 =
      if 2 ^ 127 ≤ digitsValue ((withoutMinus text).takeWhile isDigit) then .error .undefined
      else if (withoutMinus text).all isDigit then .ok (digitsValue (withoutMinus text) : ℤ)
      else .error (.exception (ascii "Invalid integer value: " ++ text)) :=
    foldlM_int128Step text (by norm_num) (withoutMinus text)
  obtain ⟨c, rest, rfl⟩ := List.exists_cons_of_ne_nil hne
  unfold ColumnType.int128FromString signedValue
  by_cases hminus : c = minus
  · have hhead : (c :: rest).head? = some minus := congrArg some hminus
    have hbody : withoutMinus (c :: rest) = rest := if_pos hhead
    rw [hbody] at hloop ⊢
    rw [if_pos hhead]
    simp only [if_pos hminus, hloop]
    split_ifs
    · rfl
    · rfl
    · rfl
  · have hhead : (c :: rest).head? ≠ some minus := fun h => hminus (Option.some.inj h)
    have hbody : withoutMinus (c :: rest) = c :: rest := if_neg hhead
    rw [hbody] at hloop ⊢
    rw [if_neg hhead]
    simp only [if_neg hminus]
    exact hloop

/-- Digits below `2 ^ 127` write an integer of the type, with either sign. -/
theorem inWidth_signedValue {text : Bytes} (h : digitsValue (withoutMinus text) < 2 ^ 127) :
    InWidth 16 (signedValue text) := by
  have hfits := inWidth_sixteen.mpr h
  unfold signedValue
  split_ifs
  · unfold InWidth at hfits ⊢
    omega
  · exact hfits

/-- **The parser of `INT128`** accepts exactly the texts that write an integer of the type, and
throws for the others, on the texts that have a character behind their sign and whose digits there,
up to the first other character, write a number below `2 ^ 127`. -/
theorem int128FromString_parsesRight_iff (text : Bytes) :
    ParsesRight 16 ColumnType.int128FromString text ↔
      withoutMinus text ≠ [] ∧ digitsValue ((withoutMinus text).takeWhile isDigit) < 2 ^ 127 := by
  constructor
  · intro h
    have hne : text ≠ [] := by
      rintro rfl
      exact not_parsesRight_of_undefined rfl h
    have heq := int128FromString_eq hne
    constructor
    · -- A lone minus would be read as zero.
      intro hbody
      have hnone : ¬ 2 ^ 127 ≤ digitsValue [] := by decide
      rw [hbody, List.takeWhile_nil, if_neg hnone, List.all_nil, if_pos rfl] at heq
      exact (writes_iff.mp ((h.1 _).mp heq).1).1 hbody
    · by_contra hgrown
      rw [if_pos (Nat.le_of_not_lt hgrown)] at heq
      exact not_parsesRight_of_undefined heq h
  · rintro ⟨hbody, hfits⟩
    have hne : text ≠ [] := by
      rintro rfl
      exact hbody rfl
    unfold ParsesRight
    rw [int128FromString_eq hne, if_neg (Nat.not_le.mpr hfits)]
    by_cases hall : (withoutMinus text).all isDigit = true
    · have hdigits : (withoutMinus text).takeWhile isDigit = withoutMinus text :=
        List.takeWhile_eq_self_iff.mpr (List.all_eq_true.mp hall)
      rw [hdigits] at hfits
      have hwrites : Writes text (signedValue text) := writes_iff.mpr ⟨hbody, hall, rfl⟩
      have hwidth := inWidth_signedValue hfits
      rw [if_pos hall]
      refine ⟨fun n => ⟨?_, ?_⟩, fun h => absurd ⟨_, hwrites, hwidth⟩ h⟩
      · intro h
        obtain rfl := Except.ok.inj h
        exact ⟨hwrites, hwidth⟩
      · rintro ⟨hn, -⟩
        rw [(writes_iff.mp hn).2.2]
    · rw [if_neg hall]
      refine ⟨fun n => ⟨?_, ?_⟩, fun _ => ⟨_, rfl⟩⟩
      · intro h
        cases h
      · rintro ⟨hn, -⟩
        exact absurd (writes_iff.mp hn).2.1 hall

/-- A lone minus is read as zero; the empty text and the text of `2 ^ 127` are undefined, where the
parser of `INT64` throws. -/
theorem not_parsesRight_int128 :
    ColumnType.int128FromString (ascii "-") = .ok 0 ∧
      ¬ ParsesRight 16 ColumnType.int128FromString (ascii "-") ∧
      ¬ ParsesRight 16 ColumnType.int128FromString [] ∧
      ¬ ParsesRight 16 ColumnType.int128FromString
        (ascii "170141183460469231731687303715884105728") := by
  have hminus : ColumnType.int128FromString (ascii "-") = .ok 0 := by decide
  refine ⟨hminus, ?_, not_parsesRight_of_undefined rfl, not_parsesRight_of_undefined (by decide)⟩
  intro h
  have hwrites := writes_iff.mp ((h.1 0).mp hminus).1
  exact hwrites.1 (by decide)

end ColumnarEngine
