import Mathlib

/-!
# Decimal text

`digits n` are the digits of a natural without leading zeros, as characters; `numberFrom n` reads
digits behind those of `n`, from the left. Reading inverts writing (`numberFrom_digits`), and the
last digit of a number is its remainder by ten (`digits_eq`).
-/

namespace ColumnarEngine.Found

/-- The character of a digit. -/
def digitOf (n : ℕ) : UInt8 := UInt8.ofNat (48 + n)

/-- The digits of a natural, without leading zeros. -/
def digits (n : ℕ) : List UInt8 := (Nat.toDigits 10 n).map fun c => UInt8.ofNat c.toNat

/-- The number that characters write behind the digits of another. -/
def numberFrom (n : ℕ) (text : List UInt8) : ℕ :=
  text.foldl (fun n c => n * 10 + (c.toNat - 48)) n

theorem numberFrom_cons (n : ℕ) (c : UInt8) (text : List UInt8) :
    numberFrom n (c :: text) = numberFrom (n * 10 + (c.toNat - 48)) text := by
  unfold numberFrom
  rw [List.foldl_cons]

theorem numberFrom_append (n : ℕ) (text text' : List UInt8) :
    numberFrom n (text ++ text') = numberFrom (numberFrom n text) text' :=
  List.foldl_append

/-- Digits behind a number do not make it smaller. -/
theorem le_numberFrom (n : ℕ) (text : List UInt8) : n ≤ numberFrom n text := by
  induction text generalizing n with
  | nil => exact le_rfl
  | cons c text ih =>
      rw [numberFrom_cons]
      apply le_trans _ (ih _)
      omega

theorem toNat_digitOf {n : ℕ} (h : n < 10) : (digitOf n).toNat = 48 + n := by
  unfold digitOf
  rw [UInt8.toNat_ofNat']
  omega

/-- The digits of a number are those of its tenth, if that is not zero, and its remainder. -/
theorem digits_eq (n : ℕ) :
    digits n = (if n < 10 then [] else digits (n / 10)) ++ [digitOf (n % 10)] := by
  have hdigit : ∀ k < 10, UInt8.ofNat (Nat.digitChar k).toNat = digitOf k := by
    intro k hk
    rw [Nat.toNat_digitChar_of_lt_ten hk]
    rfl
  unfold digits
  rw [Nat.toDigits_eq_if (by norm_num)]
  split_ifs with h
  · rw [Nat.mod_eq_of_lt h, List.map_singleton, hdigit n h]
    rfl
  · rw [List.map_append, List.map_singleton, hdigit _ (Nat.mod_lt n (by norm_num))]

theorem digits_ne_nil (n : ℕ) : digits n ≠ [] := by
  unfold digits
  simp

/-- The characters of a number are digits. -/
theorem mem_digits {n : ℕ} {c : UInt8} (h : c ∈ digits n) : 48 ≤ c ∧ c ≤ 57 := by
  induction n using Nat.strong_induction_on with
  | h n ih =>
      rw [digits_eq] at h
      rcases List.mem_append.mp h with hrest | hlast
      · split_ifs at hrest with hlt
        · cases hrest
        · exact ih (n / 10) (by omega) hrest
      · obtain rfl := List.mem_singleton.mp hlast
        have hnat := toNat_digitOf (Nat.mod_lt n (show 0 < 10 by norm_num))
        rw [UInt8.le_iff_toNat_le, UInt8.le_iff_toNat_le, hnat]
        constructor
        · exact Nat.le_add_right _ _
        · show 48 + n % 10 ≤ 57
          omega

/-- The digits of a number are read as the number. -/
theorem numberFrom_digits (n : ℕ) : numberFrom 0 (digits n) = n := by
  induction n using Nat.strong_induction_on with
  | h n ih =>
      have hlast := toNat_digitOf (Nat.mod_lt n (show 0 < 10 by norm_num))
      have hrest : numberFrom 0 (if n < 10 then [] else digits (n / 10)) = n / 10 := by
        split_ifs with h
        · exact (Nat.div_eq_of_lt h).symm
        · exact ih (n / 10) (by omega)
      rw [digits_eq, numberFrom_append, hrest, numberFrom_cons, hlast]
      show n / 10 * 10 + (48 + n % 10 - 48) = n
      omega

end ColumnarEngine.Found
