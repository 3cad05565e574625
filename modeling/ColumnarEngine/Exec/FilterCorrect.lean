import ColumnarEngine.Exec.Transforms
import Mathlib.Data.List.Sort

/-!
# Filters select by their predicate

A tree of comparisons denotes a formula over a row (`FilterFunction.passes`), and on a well-formed
batch `evaluate` returns the selected indices whose row satisfies it. The nodes intersect and merge
index lists; this computes a formula because every subtree returns an increasing list of physical
indices.
-/

namespace ColumnarEngine

/-! ## Merging sublists of one increasing list -/

/-- A member of increasing ranges is not below the head of one of them. -/
theorem le_of_mem_pairwise {a i : ℕ} {as : List ℕ} (h : (a :: as).Pairwise (· < ·))
    (hi : i ∈ a :: as) : a ≤ i := by
  rcases List.mem_cons.mp hi with rfl | hi
  · exact le_rfl
  · exact ((List.pairwise_cons.mp h).1 i hi).le

/-- The intersection of increasing ranges has the common members. -/
theorem mem_setIntersection_iff {i : ℕ} {as bs : List ℕ} (ha : as.Pairwise (· < ·))
    (hb : bs.Pairwise (· < ·)) : i ∈ setIntersection as bs ↔ i ∈ as ∧ i ∈ bs := by
  fun_induction setIntersection as bs with
  | case1 a as b bs hab ih =>
      have hne : i ∈ b :: bs → i ≠ a := by
        rintro hi rfl
        exact absurd (le_of_mem_pairwise hb hi) (not_le.mpr hab)
      rw [ih ha.of_cons hb, List.mem_cons (a := i) (b := a)]
      constructor
      · exact fun h => ⟨.inr h.1, h.2⟩
      · exact fun h => ⟨h.1.resolve_left (hne h.2), h.2⟩
  | case2 a as b bs _ hba ih =>
      have hne : i ∈ a :: as → i ≠ b := by
        rintro hi rfl
        exact absurd (le_of_mem_pairwise ha hi) (not_le.mpr hba)
      rw [ih ha hb.of_cons, List.mem_cons (a := i) (b := b)]
      constructor
      · exact fun h => ⟨h.1, .inr h.2⟩
      · exact fun h => ⟨h.1, h.2.resolve_left (hne h.1)⟩
  | case3 a as b bs hab hba ih =>
      obtain rfl : a = b := le_antisymm (not_lt.mp hba) (not_lt.mp hab)
      rw [List.mem_cons, ih ha.of_cons hb.of_cons, List.mem_cons, List.mem_cons]
      exact or_and_left
  | case4 as bs h =>
      cases as with
      | nil => simp
      | cons a as =>
          cases bs with
          | nil => simp
          | cons b bs => exact absurd rfl (h a as b bs rfl)

/-- The union of ranges has the members of both. -/
theorem mem_setUnion_iff {i : ℕ} {as bs : List ℕ} : i ∈ setUnion as bs ↔ i ∈ as ∨ i ∈ bs := by
  fun_induction setUnion as bs with
  | case1 a as b bs hab ih => rw [List.mem_cons, ih, List.mem_cons (b := a), or_assoc]
  | case2 a as b bs _ hba ih => rw [List.mem_cons, ih, List.mem_cons (b := b), or_left_comm]
  | case3 a as b bs hab hba ih =>
      obtain rfl : a = b := le_antisymm (not_lt.mp hba) (not_lt.mp hab)
      rw [List.mem_cons, ih, List.mem_cons, List.mem_cons]
      exact or_or_distrib_left
  | case4 => simp
  | case5 => simp

section Filter

variable {l : List ℕ} (p q : ℕ → Bool)

theorem setIntersection_filter (hl : l.Pairwise (· < ·)) :
    setIntersection (l.filter p) (l.filter q) = l.filter fun i => p i && q i := by
  apply (pairwise_setIntersection (hl.filter p)).eq_of_mem_iff (hl.filter _)
  intro i
  rw [mem_setIntersection_iff (hl.filter p) (hl.filter q), List.mem_filter, List.mem_filter,
    List.mem_filter, Bool.and_eq_true]
  exact and_and_left.symm

theorem setUnion_filter (hl : l.Pairwise (· < ·)) :
    setUnion (l.filter p) (l.filter q) = l.filter fun i => p i || q i := by
  apply (pairwise_setUnion (hl.filter p) (hl.filter q)).eq_of_mem_iff (hl.filter _)
  intro i
  rw [mem_setUnion_iff, List.mem_filter, List.mem_filter, List.mem_filter, Bool.or_eq_true]
  exact and_or_left.symm

end Filter

/-! ## The formula of a filter -/

namespace FilterFunction

/-- The row passes the tests of the leaves, as the nodes combine them. -/
def passes (P : Platform) (row : Row) : FilterFunction → Bool
  | compare cmp type columnInd target => cmp.test P type target (row.getD columnInd default)
  | and left right => left.passes P row && right.passes P row
  | or left right => left.passes P row || right.passes P row

variable {P : Platform} {b : RecordBatch}

/-- **`Evaluate`** keeps the selected rows that satisfy the formula. -/
theorem evaluate_eq (hb : b.WellFormed) {f : FilterFunction} (hf : f.WellTyped b.types) :
    f.evaluate P b = some (b.selected.filter fun i => f.passes P (b.rowAt i)) := by
  induction f with
  | compare cmp t col target => exact evaluate_compare hb cmp target hf
  | and left right ihl ihr =>
      simp only [evaluate, ihl hf.1, ihr hf.2, Option.bind_eq_bind, Option.bind_some,
        Option.pure_def]
      exact congrArg some (setIntersection_filter _ _ hb.selected_increasing)
  | or left right ihl ihr =>
      simp only [evaluate, ihl hf.1, ihr hf.2, Option.bind_eq_bind, Option.bind_some,
        Option.pure_def]
      exact congrArg some (setUnion_filter _ _ hb.selected_increasing)

end FilterFunction

/-! ## Filters one after another -/

/-- `Execute` of the transforms in order; a null batch is not passed on. -/
def executeAll (P : Platform) : List TransformOperator → RecordBatch → Option (Option RecordBatch)
  | [], b => some (some b)
  | t :: ts, b => (t.execute P b).bind fun
      | none => some none
      | some b' => executeAll P ts b'

section ExecuteAll

variable {P : Platform} {t : TransformOperator} {b : RecordBatch}

/-- A null batch ends the loop. -/
theorem executeAll_of_none (ts : List TransformOperator) (h : t.execute P b = some none) :
    executeAll P (t :: ts) b = some none := by
  rw [executeAll, h, Option.bind_some]

/-- A batch goes to the next transform. -/
theorem executeAll_of_some (ts : List TransformOperator) {b' : RecordBatch}
    (h : t.execute P b = some (some b')) : executeAll P (t :: ts) b = executeAll P ts b' := by
  rw [executeAll, h, Option.bind_some]

theorem executeAll_singleton (P : Platform) (t : TransformOperator) (b : RecordBatch) :
    executeAll P [t] b = t.execute P b := by
  rw [executeAll]
  cases t.execute P b with
  | none => rfl
  | some r => cases r <;> rfl

/-- What a filter makes of a batch, from the indices `Evaluate` returns. -/
theorem execute_filter {f : FilterFunction} {sel : List ℕ} (h : f.evaluate P b = some sel) :
    (TransformOperator.filter f).execute P b = some (if sel = [] then none
      else some { b with numRows := sel.length, selectionVector := some sel }) := by
  simp [TransformOperator.execute, filterExecute, h]

/-- Two filters in a row do what their conjunction does. -/
theorem executeAll_filter_filter (hb : b.WellFormed) {f g : FilterFunction}
    (hf : f.WellTyped b.types) (hg : g.WellTyped b.types) :
    executeAll P [.filter f, .filter g] b = executeAll P [.filter (.and f g)] b := by
  have hfirst := FilterFunction.evaluate_eq (P := P) hb hf
  have hand := FilterFunction.evaluate_eq (P := P) (f := .and f g) hb ⟨hf, hg⟩
  set sel := b.selected.filter fun i => f.passes P (b.rowAt i) with hsel
  have hboth : (b.selected.filter fun i => (FilterFunction.and f g).passes P (b.rowAt i)) =
      sel.filter fun i => g.passes P (b.rowAt i) := by
    rw [hsel, List.filter_filter]
    exact List.filter_congr fun i _ => Bool.and_comm _ _
  rw [executeAll_singleton, execute_filter hand, hboth]
  by_cases hempty : sel = []
  · have hnone := execute_filter hfirst
    rw [if_pos hempty] at hnone
    rw [executeAll_of_none _ hnone, hempty]
    rfl
  · have hsome := execute_filter hfirst
    rw [if_neg hempty] at hsome
    set b₁ : RecordBatch := { b with numRows := sel.length, selectionVector := some sel }
    have hwf : b₁.WellFormed := hb.sub_selection (hb.selected_increasing.filter _)
      fun i hi => (List.mem_filter.mp hi).1
    have hsecond : g.evaluate P b₁ = some (sel.filter fun i => g.passes P (b.rowAt i)) :=
      FilterFunction.evaluate_eq hwf hg
    rw [executeAll_of_some _ hsome, executeAll_singleton, execute_filter hsecond]

end ExecuteAll

end ColumnarEngine
