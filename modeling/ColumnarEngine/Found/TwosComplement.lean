import Mathlib

/-!
# Fixed-width integers: two's complement wrapping and little-endian bytes

A machine integer of `s` bytes is an integer `n` with `InWidth s n`. `wrap s` is the conversion of
an arbitrary integer to that width. Addition in width `s` is `wrap s (a + b)`, so a chain of such
additions computes the wrapped exact sum, and the exact sum whenever that itself fits
(`wrap_eq_self`). No addition on the way leaves the width if the partial sums fit (`PrefixSumsFit`),
and none in any order if the sums of either sign do (`SumsFit`).

`toLE`/`ofLE` are the little-endian bytes of a natural, `encodeInt`/`decodeInt` those of a
two's complement integer. Both pairs are inverse on the values that fit.
-/

namespace ColumnarEngine.Found

/-! ## Wrapping -/

/-- The integer `n` is representable in `s` bytes of two's complement. -/
def InWidth (s : ℕ) (n : ℤ) : Prop := -(256 ^ s : ℤ) ≤ 2 * n ∧ 2 * n < 256 ^ s

instance (s : ℕ) (n : ℤ) : Decidable (InWidth s n) := by unfold InWidth; infer_instance

/-- Conversion of an integer to `s` bytes of two's complement. -/
def wrap (s : ℕ) (n : ℤ) : ℤ := Int.bmod n (256 ^ s)

/-- A wrapped integer fits. -/
theorem inWidth_wrap (s : ℕ) (n : ℤ) : InWidth s (wrap s n) := by
  have hpos : 0 < 256 ^ s := by positivity
  have hlt := Int.bmod_lt (x := n) hpos
  have hle := Int.le_bmod (x := n) hpos
  unfold InWidth wrap
  push_cast at hlt hle ⊢
  omega

/-- Wrapping changes nothing that fits. -/
theorem wrap_eq_self {s : ℕ} {n : ℤ} (h : InWidth s n) : wrap s n = n := by
  obtain ⟨hlo, hhi⟩ := h
  unfold wrap
  apply Int.bmod_eq_of_le_mul_two <;> push_cast <;> omega

@[simp] theorem wrap_wrap (s : ℕ) (n : ℤ) : wrap s (wrap s n) = wrap s n :=
  wrap_eq_self (inWidth_wrap s n)

@[simp] theorem wrap_wrap_add (s : ℕ) (a b : ℤ) : wrap s (wrap s a + b) = wrap s (a + b) := by
  simp [wrap]

@[simp] theorem wrap_add_wrap (s : ℕ) (a b : ℤ) : wrap s (a + wrap s b) = wrap s (a + b) := by
  simp [wrap]

/-- Zero fits every width. -/
theorem inWidth_zero (s : ℕ) : InWidth s 0 := by
  have hpos : (0 : ℤ) < 256 ^ s := by positivity
  exact ⟨by omega, by omega⟩

/-- Widening keeps a value representable. -/
theorem InWidth.mono {s s' : ℕ} {n : ℤ} (hs : s ≤ s') (h : InWidth s n) : InWidth s' n := by
  have hpow : (256 : ℤ) ^ s ≤ 256 ^ s' := pow_le_pow_right₀ (by norm_num) hs
  exact ⟨by have := h.1; omega, by have := h.2; omega⟩

/-- A sum of at most `256 ^ k` values of width `s` fits in `s + k` bytes. -/
theorem inWidth_sum {s k : ℕ} {m : Multiset ℤ} (h : ∀ n ∈ m, InWidth s n)
    (hcard : m.card < 256 ^ k) : InWidth (s + k) m.sum := by
  have hbound : -((256 : ℤ) ^ s) * m.card ≤ 2 * m.sum ∧ 2 * m.sum ≤ 256 ^ s * m.card := by
    clear hcard
    induction m using Multiset.induction with
    | empty => simp
    | cons n m ih =>
        obtain ⟨ihlo, ihhi⟩ := ih fun x hx => h x (Multiset.mem_cons_of_mem hx)
        obtain ⟨hlo, hhi⟩ := h n (Multiset.mem_cons_self n m)
        rw [Multiset.sum_cons, Multiset.card_cons]
        push_cast
        constructor <;> linarith
  have hcard' : (m.card : ℤ) < 256 ^ k := by exact_mod_cast hcard
  have hpos : (0 : ℤ) < 256 ^ s := by positivity
  have hmul : (256 : ℤ) ^ s * m.card < 256 ^ s * 256 ^ k := by
    exact mul_lt_mul_of_pos_left hcard' hpos
  unfold InWidth
  rw [pow_add]
  constructor <;> linarith [hbound.1, hbound.2]

/-! ## Sums -/

/-- Every partial sum of the list, added up from the left, fits. -/
def PrefixSumsFit (s : ℕ) (ns : List ℤ) : Prop := ∀ p ∈ ns.inits, InWidth s p.sum

instance (s : ℕ) (ns : List ℤ) : Decidable (PrefixSumsFit s ns) := by
  unfold PrefixSumsFit
  infer_instance

theorem prefixSumsFit_nil (s : ℕ) : PrefixSumsFit s [] := by
  intro p hp
  obtain rfl := List.prefix_nil.mp ((List.mem_inits p []).mp hp)
  exact inWidth_zero s

/-- One more addition. -/
theorem prefixSumsFit_concat {s : ℕ} {ns : List ℤ} {n : ℤ} :
    PrefixSumsFit s (ns ++ [n]) ↔ PrefixSumsFit s ns ∧ InWidth s (ns.sum + n) := by
  have hmem : ∀ p, p ∈ (ns ++ [n]).inits ↔ p ∈ ns.inits ∨ p = ns ++ [n] := by
    intro p
    rw [List.mem_inits, List.mem_inits, List.prefix_concat_iff, or_comm]
  simp only [PrefixSumsFit, hmem]
  constructor
  · intro h
    refine ⟨fun p hp => h p (.inl hp), ?_⟩
    simpa using h (ns ++ [n]) (.inr rfl)
  · rintro ⟨hns, hn⟩ p (hp | rfl)
    · exact hns p hp
    · simpa using hn

/-- The whole sum fits. -/
theorem PrefixSumsFit.sum {s : ℕ} {ns : List ℤ} (h : PrefixSumsFit s ns) : InWidth s ns.sum :=
  h ns ((List.mem_inits ns ns).mpr List.prefix_rfl)

/-- The partial sums of a beginning of the list are among those of the list. -/
theorem PrefixSumsFit.of_initial {s : ℕ} {ns ns' : List ℤ} (hle : ns <+: ns')
    (h : PrefixSumsFit s ns') : PrefixSumsFit s ns := by
  intro p hp
  rw [List.mem_inits] at hp
  exact h p ((List.mem_inits p ns').mpr (hp.trans hle))

/-- The partial sums of numbered values. -/
theorem prefixSumsFit_map_range {s n : ℕ} {f : ℕ → ℤ} :
    PrefixSumsFit s ((List.range n).map f) ↔
      ∀ d ≤ n, InWidth s (∑ i ∈ Finset.range d, f i) := by
  have hsum : ∀ d, ((List.range d).map f).sum = ∑ i ∈ Finset.range d, f i :=
    fun d => rfl
  induction n with
  | zero => simp [prefixSumsFit_nil, inWidth_zero]
  | succ n ih =>
      rw [List.range_succ, List.map_append, List.map_singleton, prefixSumsFit_concat, hsum,
        ← Finset.sum_range_succ]
      refine (and_congr_left' ih).trans ?_
      constructor
      · rintro ⟨h, hn⟩ d hd
        rcases Nat.le_succ_iff.mp hd with hd | rfl
        · exact h d hd
        · exact hn
      · exact fun h => ⟨fun d hd => h d (Nat.le_succ_of_le hd), h (n + 1) le_rfl⟩

/-- The positive and the negative values each add up within the width, so that no sum of some of the
values leaves it. -/
def SumsFit (s : ℕ) (m : Multiset ℤ) : Prop :=
  InWidth s (m.map (max 0)).sum ∧ InWidth s (m.map (min 0)).sum

instance (s : ℕ) (m : Multiset ℤ) : Decidable (SumsFit s m) := by
  unfold SumsFit
  infer_instance

theorem sum_max_nonneg (m : Multiset ℤ) : 0 ≤ (m.map (max 0)).sum := by
  apply Multiset.sum_nonneg
  intro n hn
  obtain ⟨n', -, rfl⟩ := Multiset.mem_map.mp hn
  exact le_max_left 0 n'

theorem sum_min_nonpos (m : Multiset ℤ) : (m.map (min 0)).sum ≤ 0 := by
  refine (Multiset.sum_le_card_nsmul _ 0 fun n hn => ?_).trans_eq (nsmul_zero _)
  obtain ⟨n', -, rfl⟩ := Multiset.mem_map.mp hn
  exact min_le_left 0 n'

namespace SumsFit

variable {s : ℕ} {m m' : Multiset ℤ}

/-- Some of the values fit as well. -/
theorem mono (h : SumsFit s m) (hle : m' ≤ m) : SumsFit s m' := by
  obtain ⟨rest, rfl⟩ := Multiset.le_iff_exists_add.mp hle
  obtain ⟨⟨-, hhi⟩, hlo, -⟩ := h
  rw [Multiset.map_add, Multiset.sum_add] at hhi hlo
  have hpos : (0 : ℤ) < 256 ^ s := by positivity
  have hmax := sum_max_nonneg m'
  have hmin := sum_min_nonpos m'
  have hrestMax := sum_max_nonneg rest
  have hrestMin := sum_min_nonpos rest
  refine ⟨⟨?_, ?_⟩, ?_, ?_⟩ <;> linarith

/-- The sum of all values fits. -/
theorem inWidth (h : SumsFit s m) : InWidth s m.sum := by
  obtain ⟨⟨-, hhi⟩, hlo, -⟩ := h
  have hmax : m.sum ≤ (m.map (max 0)).sum := by
    conv_lhs => rw [← Multiset.map_id' m]
    exact Multiset.sum_map_le_sum_map _ _ fun n _ => le_max_right 0 n
  have hmin : (m.map (min 0)).sum ≤ m.sum := by
    conv_rhs => rw [← Multiset.map_id' m]
    exact Multiset.sum_map_le_sum_map _ _ fun n _ => min_le_right 0 n
  constructor <;> linarith

/-- A sum of some of the values fits. -/
theorem inWidth_of_le (h : SumsFit s m) (hle : m' ≤ m) : InWidth s m'.sum := (h.mono hle).inWidth

end SumsFit

/-- Few values of a smaller width leave room for every sum. -/
theorem sumsFit_of_card {s k : ℕ} {m : Multiset ℤ} (h : ∀ n ∈ m, InWidth s n)
    (hcard : m.card < 256 ^ k) : SumsFit (s + k) m := by
  have hzero := inWidth_zero s
  constructor <;> apply inWidth_sum _ (by rwa [Multiset.card_map]) <;> intro n hn <;>
    obtain ⟨n', hn', rfl⟩ := Multiset.mem_map.mp hn
  · rcases max_choice 0 n' with heq | heq <;> rw [heq]
    · exact hzero
    · exact h n' hn'
  · rcases min_choice 0 n' with heq | heq <;> rw [heq]
    · exact hzero
    · exact h n' hn'

/-! ## Little-endian bytes -/

/-- The `w` little-endian bytes of a natural; higher bits are dropped. -/
def toLE : ℕ → ℕ → List UInt8
  | 0, _ => []
  | w + 1, n => UInt8.ofNat n :: toLE w (n / 256)

/-- The natural with the given little-endian bytes. -/
def ofLE : List UInt8 → ℕ
  | [] => 0
  | b :: bs => b.toNat + 256 * ofLE bs

@[simp] theorem length_toLE (w n : ℕ) : (toLE w n).length = w := by
  induction w generalizing n with
  | zero => rfl
  | succ w ih => simp [toLE, ih]

/-- Decoding the bytes of `n` gives `n` modulo the width. -/
theorem ofLE_toLE (w n : ℕ) : ofLE (toLE w n) = n % 256 ^ w := by
  induction w generalizing n with
  | zero => simp [toLE, ofLE, Nat.mod_one]
  | succ w ih => simp [toLE, ofLE, ih, pow_succ', Nat.mod_mul]

/-- Decoding inverts encoding on the naturals that fit. -/
theorem ofLE_toLE_of_lt {w n : ℕ} (h : n < 256 ^ w) : ofLE (toLE w n) = n := by
  rw [ofLE_toLE, Nat.mod_eq_of_lt h]

/-- Bytes are a natural of their width. -/
theorem ofLE_lt (bs : List UInt8) : ofLE bs < 256 ^ bs.length := by
  induction bs with
  | nil => exact Nat.one_pos
  | cons b bs ih =>
      have hb := b.toNat_lt
      unfold ofLE
      rw [List.length_cons, pow_succ]
      omega

/-- Encoding inverts decoding. -/
theorem toLE_ofLE (bs : List UInt8) : toLE bs.length (ofLE bs) = bs := by
  induction bs with
  | nil => rfl
  | cons b bs ih =>
      have hb := b.toNat_lt
      have hdiv : (b.toNat + 256 * ofLE bs) / 256 = ofLE bs := by omega
      have hhead : UInt8.ofNat (b.toNat + 256 * ofLE bs) = b := by
        apply UInt8.toNat_inj.mp
        rw [UInt8.toNat_ofNat']
        omega
      simp only [List.length_cons, toLE, ofLE, hdiv, hhead, ih]

/-- Only the low bits are encoded. -/
theorem toLE_mod (w n : ℕ) : toLE w (n % 256 ^ w) = toLE w n := by
  have := toLE_ofLE (toLE w n)
  rwa [length_toLE, ofLE_toLE] at this

/-- The `s` little-endian bytes of a two's complement integer. -/
def encodeInt (s : ℕ) (n : ℤ) : List UInt8 := toLE s (n % 256 ^ s).toNat

/-- The two's complement integer with the given little-endian bytes. -/
def decodeInt (bs : List UInt8) : ℤ := wrap bs.length (ofLE bs)

@[simp] theorem length_encodeInt (s : ℕ) (n : ℤ) : (encodeInt s n).length = s := length_toLE _ _

/-- Decoding the bytes of an integer wraps it to the width. -/
theorem decodeInt_encodeInt (s : ℕ) (n : ℤ) : decodeInt (encodeInt s n) = wrap s n := by
  have hpos : (0 : ℤ) < 256 ^ s := by positivity
  have hmod : 0 ≤ n % 256 ^ s := Int.emod_nonneg n hpos.ne'
  have hlt : (n % 256 ^ s).toNat < 256 ^ s := by
    have := Int.emod_lt_of_pos n hpos
    zify
    rwa [Int.toNat_of_nonneg hmod]
  unfold decodeInt
  rw [length_encodeInt, encodeInt, ofLE_toLE_of_lt hlt, Int.toNat_of_nonneg hmod, wrap, wrap]
  have := Int.emod_bmod (x := n) (n := 256 ^ s)
  exact_mod_cast this

theorem decodeInt_encodeInt_of_inWidth {s : ℕ} {n : ℤ} (h : InWidth s n) :
    decodeInt (encodeInt s n) = n := by
  rw [decodeInt_encodeInt, wrap_eq_self h]

/-- The bytes of a fixed width determine the integer. -/
theorem encodeInt_inj {s : ℕ} {m n : ℤ} (hm : InWidth s m) (hn : InWidth s n) :
    encodeInt s m = encodeInt s n ↔ m = n := by
  refine ⟨?_, fun h => by rw [h]⟩
  intro h
  rw [← decodeInt_encodeInt_of_inWidth hm, h, decodeInt_encodeInt_of_inWidth hn]

/-- The bytes of a fixed width determine the natural. -/
theorem toLE_inj {w m n : ℕ} (hm : m < 256 ^ w) (hn : n < 256 ^ w) :
    toLE w m = toLE w n ↔ m = n := by
  refine ⟨?_, fun h => by rw [h]⟩
  intro h
  rw [← ofLE_toLE_of_lt hm, h, ofLE_toLE_of_lt hn]

end ColumnarEngine.Found
