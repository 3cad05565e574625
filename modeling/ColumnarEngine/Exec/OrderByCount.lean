import ColumnarEngine.Exec.OrderByLayout

/-!
# How many rows ORDER BY emits

The bound `limit + offset`, ten times it and its narrowing to `uint32_t` are taken at their widths.
A trim leaves at least as many rows as the bound, so the result has the rows of the window of what
was counted, unless `limit + offset` wraps: the bound is then below the offset, and no row is
emitted (`orderBy_count_iff`).
-/

namespace ColumnarEngine

open Found

/-! ## Trims leave the rows below the bound -/

/-- The smaller of a bound and a number of rows. -/
def atMost (total : Option ℕ) (k : ℕ) : ℕ := total.elim k fun T => min T k

/-- The narrowing does not change a bound that cuts. -/
theorem cutRows_eq (total : Option ℕ) {k : ℕ} (hk : k < 2 ^ 32) :
    cutRows total k = atMost total k := by
  cases total with
  | none => rfl
  | some T =>
      simp only [cutRows, atMost, Option.elim_some]
      split_ifs with hcut
      · rw [toUInt32_of_lt (hcut.trans hk), min_eq_left hcut.le]
      · rw [min_eq_right (not_lt.mp hcut)]

/-- A trim leaves the rows below the bound. -/
theorem rowsLeft_bounds (total : Option ℕ) {k : ℕ} (hk : k < 2 ^ 32) :
    rowsLeft total k ≤ k ∧ atMost total k ≤ rowsLeft total k := by
  cases total with
  | none => exact ⟨le_rfl, le_rfl⟩
  | some T =>
      simp only [rowsLeft, atMost, Option.elim_some]
      split_ifs with hcut
      · rw [toUInt32_of_lt (hcut.2.trans hk)]
        exact ⟨hcut.2.le, min_le_left _ _⟩
      · exact ⟨le_rfl, min_le_right _ _⟩

theorem atMost_add_le (total : Option ℕ) (k m : ℕ) :
    atMost total (k + m) ≤ atMost total k + m := by
  cases total with
  | none => exact le_rfl
  | some T =>
      simp only [atMost, Option.elim_some]
      omega

theorem atMost_mono (total : Option ℕ) {k m : ℕ} (h : k ≤ m) : atMost total k ≤ atMost total m := by
  cases total with
  | none => exact h
  | some T => exact min_le_min_left T h

theorem atMost_atMost (total : Option ℕ) (k : ℕ) :
    atMost total (atMost total k) = atMost total k := by
  cases total with
  | none => rfl
  | some T => simp [atMost]

/-- What survives the trims of a thread. -/
theorem survivors_bounds (total : Option ℕ) {sizes : List ℕ} (hsum : sizes.sum < 2 ^ 32) :
    survivors total sizes ≤ sizes.sum ∧ atMost total sizes.sum ≤ survivors total sizes := by
  induction sizes using List.reverseRecOn with
  | nil => cases total <;> simp [survivors, atMost]
  | append_singleton sizes m ih =>
      rw [List.sum_append, List.sum_singleton] at hsum ⊢
      obtain ⟨hle, hge⟩ := ih (by omega)
      rw [survivors_append]
      obtain ⟨hle', hge'⟩ := rowsLeft_bounds total (k := survivors total sizes + m) (by omega)
      refine ⟨by omega, ?_⟩
      calc atMost total (sizes.sum + m)
          = atMost total (atMost total (sizes.sum + m)) := (atMost_atMost _ _).symm
        _ ≤ atMost total (atMost total sizes.sum + m) := atMost_mono _ (atMost_add_le _ _ _)
        _ ≤ atMost total (survivors total sizes + m) :=
            atMost_mono _ (Nat.add_le_add_right hge m)
        _ ≤ rowsLeft total (survivors total sizes + m) := hge'

/-- What survives on all threads, cut at the bound, is what was counted, cut at the bound. -/
theorem atMost_sum_survivors (total : Option ℕ) {counted : List (List ℕ)}
    (hsum : (counted.map List.sum).sum < 2 ^ 32) :
    atMost total (counted.map (survivors total)).sum =
        atMost total (counted.map List.sum).sum ∧
      (counted.map (survivors total)).sum ≤ (counted.map List.sum).sum := by
  induction counted with
  | nil => exact ⟨rfl, le_rfl⟩
  | cons sizes counted ih =>
      simp only [List.map_cons, List.sum_cons] at hsum ⊢
      obtain ⟨heq, hle⟩ := ih (by omega)
      obtain ⟨hle', hge'⟩ := @survivors_bounds total sizes (by omega)
      refine ⟨?_, by omega⟩
      cases total with
      | none =>
          simp only [atMost, Option.elim_none] at heq hge' ⊢
          omega
      | some T =>
          simp only [atMost, Option.elim_some] at heq hge' ⊢
          omega

namespace OrderBySinkSourceOperator

variable {P : Platform} {A : SortAlgorithms ℕ}

/-! ## The rows a run counts -/

/-- The sizes of the batches a thread has counted: without columns every `Sink` call is taken for
the first, so only the last one. -/
def countedSizes (types : List ColumnType) (calls : List (RecordBatch × ℕ)) (t : ℕ) : List ℕ :=
  let sizes := (threadBatches calls t).map RecordBatch.numRows
  if types = [] then sizes.getLast?.toList else sizes

/-! ## The exact condition -/

/-- The rows counted on all threads. -/
theorem sum_countedSizes {types : List ColumnType} {n : ℕ} {calls : List (RecordBatch × ℕ)}
    (hcalls : ValidCalls types n calls) :
    (((List.range n).map (countedSizes types calls)).map List.sum).sum ≤ (sunkRows calls).length ∧
      (types ≠ [] → (((List.range n).map (countedSizes types calls)).map List.sum).sum =
        (sunkRows calls).length) := by
  have hrows : ∀ t, (threadRowList calls t).length =
      ((threadBatches calls t).map RecordBatch.numRows).sum := by
    intro t
    rw [threadRowList, List.length_flatMap]
    refine congrArg List.sum (List.map_congr_left fun b hb => ?_)
    exact (hcalls (b, t) (mem_threadBatches.mp hb)).1.length_rows
  have hall : (sunkRows calls).length = ((List.range n).map fun t =>
      ((threadBatches calls t).map RecordBatch.numRows).sum).sum := by
    rw [← (flatMap_threadRowList_perm fun c hc => (hcalls c hc).2.2).length_eq, List.length_flatMap]
    exact congrArg List.sum (List.map_congr_left fun t _ => hrows t)
  rw [hall, List.map_map]
  constructor
  · apply List.sum_le_sum
    intro t _
    rw [Function.comp_apply, countedSizes]
    split_ifs
    · cases hlast : ((threadBatches calls t).map RecordBatch.numRows).getLast? with
      | none => exact Nat.zero_le _
      | some m =>
          rw [Option.toList_some, List.sum_singleton]
          exact List.single_le_sum (fun _ _ => Nat.zero_le _) m (List.mem_of_getLast? hlast)
    · exact le_rfl
  · intro hne
    refine congrArg List.sum (List.map_congr_left fun t _ => ?_)
    rw [Function.comp_apply, countedSizes, if_neg hne]

/-- A run emits the rows counted, cut at the bound, without the offset. -/
theorem exists_count {types : List ColumnType} {sortColumns : List (ℕ × Bool)}
    (limit offset : Option ℕ) {n : ℕ} {calls : List (RecordBatch × ℕ)}
    (hcalls : ValidCalls types n calls)
    (hsort : SortableRows P types sortColumns (sunkRows calls))
    (hrows : (sunkRows calls).length < 2 ^ 32) :
    ∃ b, Emits P A (create sortColumns types limit offset n) calls b ∧
      b.rows.length = atMost (create sortColumns types limit offset n).totalLimit
        (((List.range n).map (countedSizes types calls)).map List.sum).sum - offset.getD 0 := by
  set total := (create sortColumns types limit offset n).totalLimit with htotal
  obtain ⟨b, hemits, hcount⟩ : ∃ b, Emits P A (create sortColumns types limit offset n) calls b ∧
      b.rows.length = cutRows total
        ((List.range n).map fun t => survivors total (countedSizes types calls t)).sum -
          offset.getD 0 := by
    by_cases hne : types = []
    · subst hne
      obtain rfl := sortColumns_eq_nil hsort
      refine ⟨_, columnless_run limit offset hcalls, ?_⟩
      have hsurvivors : ∀ t, survivors total (countedSizes [] calls t) =
          rowsLeft total (lastRows calls t) := by
        intro t
        rw [countedSizes, if_pos rfl, lastRows, List.getLast?_map]
        cases (threadBatches calls t).getLast? with
        | none => cases total <;> rfl
        | some b => simp [survivors]
      rw [rows_columnless ⟨0, by simp, by simp⟩ rfl, List.length_replicate, funext hsurvivors]
    · obtain ⟨b, hemits, hcount, -⟩ := sized_run (P := P) (A := A) hne limit offset hcalls hsort
      have hcounted : countedSizes types calls = fun t =>
          (threadBatches calls t).map RecordBatch.numRows := funext fun t => if_neg hne
      exact ⟨b, hemits, by rw [hcount, mergedRows, hcounted]⟩
  have hle := (sum_countedSizes hcalls).1
  obtain ⟨heq, hle'⟩ := @atMost_sum_survivors total ((List.range n).map (countedSizes types calls))
    (by omega)
  rw [List.map_map] at heq hle'
  refine ⟨b, hemits, ?_⟩
  rw [hcount, ← heq, ← cutRows_eq total (hle'.trans_lt (by omega))]
  rfl

/-- The rows emitted are those of the window of the rows counted, or none if the bound wraps. -/
theorem atMost_totalLimit {limit offset : Option ℕ} (hlimit : ∀ l ∈ limit, l < 2 ^ 64)
    (hoffset : ∀ o ∈ offset, o < 2 ^ 64) (sortColumns : List (ℕ × Bool)) (types : List ColumnType)
    (n k : ℕ) :
    atMost (create sortColumns types limit offset n).totalLimit k - offset.getD 0 =
      if ∀ l ∈ limit, l + offset.getD 0 < 2 ^ 64 then windowSize limit offset k else 0 := by
  cases limit with
  | none => simp [create, atMost, windowSize]
  | some l =>
      have hl := hlimit l rfl
      cases offset with
      | none =>
          have hfits : ∀ l' ∈ some l, l' + (none : Option ℕ).getD 0 < 2 ^ 64 := by
            rintro l' ⟨⟩
            exact hl
          rw [if_pos hfits]
          rfl
      | some o =>
          have ho := hoffset o rfl
          simp only [create, atMost, windowSize, Option.map_some, Option.elim_some,
            Option.getD_some, Option.mem_some_iff, forall_eq']
          split_ifs with hfits
          · rw [Nat.mod_eq_of_lt hfits]
            omega
          · omega

/-- **The number of rows** is that of the window exactly when `limit + offset` does not wrap or no
row is left behind the offset, and the child has columns or the last batches of the threads have as
many rows in the window as all batches. -/
theorem orderBy_count_iff (P : Platform) (A : SortAlgorithms ℕ) {types : List ColumnType}
    {sortColumns : List (ℕ × Bool)} {limit offset : Option ℕ} (hlimit : ∀ l ∈ limit, l < 2 ^ 64)
    (hoffset : ∀ o ∈ offset, o < 2 ^ 64) {n : ℕ} {calls : List (RecordBatch × ℕ)}
    (hcalls : ValidCalls types n calls)
    (hsort : SortableRows P types sortColumns (sunkRows calls))
    (hrows : (sunkRows calls).length < 2 ^ 32) :
    ∃ b, Emits P A (create sortColumns types limit offset n) calls b ∧
      (b.rows.length = windowSize limit offset (sunkRows calls).length ↔
        ((∀ l ∈ limit, l + offset.getD 0 < 2 ^ 64) ∨ (sunkRows calls).length ≤ offset.getD 0) ∧
        (types ≠ [] ∨ windowSize limit offset ((List.range n).map (lastRows calls)).sum =
          windowSize limit offset (sunkRows calls).length)) := by
  obtain ⟨b, hemits, hcount⟩ := exists_count (P := P) (A := A) limit offset hcalls hsort hrows
  refine ⟨b, hemits, ?_⟩
  obtain ⟨hle, heq⟩ := sum_countedSizes hcalls
  have hlast : types = [] → (((List.range n).map (countedSizes types calls)).map List.sum).sum =
      ((List.range n).map (lastRows calls)).sum := by
    rintro rfl
    rw [List.map_map]
    refine congrArg List.sum (List.map_congr_left fun t _ => ?_)
    rw [Function.comp_apply, countedSizes, if_pos rfl, lastRows, List.getLast?_map]
    cases (threadBatches calls t).getLast? <;> simp
  rw [hcount, atMost_totalLimit hlimit hoffset]
  set counted := (((List.range n).map (countedSizes types calls)).map List.sum).sum
  have hwindow : windowSize limit offset counted = windowSize limit offset (sunkRows calls).length ↔
      (types ≠ [] ∨ windowSize limit offset ((List.range n).map (lastRows calls)).sum =
        windowSize limit offset (sunkRows calls).length) := by
    by_cases hne : types = []
    · rw [hlast hne]
      simp [hne]
    · exact iff_of_true (by rw [heq hne]) (.inl hne)
  rw [← hwindow]
  split_ifs with hfits
  · exact ⟨fun h => ⟨.inl hfits, h⟩, fun h => h.2⟩
  · have hzero : ∀ k, k ≤ offset.getD 0 → windowSize limit offset k = 0 := by
      intro k hk
      cases limit <;> simp [windowSize, Nat.sub_eq_zero_of_le hk]
    obtain ⟨l, rfl, hwrap⟩ : ∃ l, limit = some l ∧ ¬ l + offset.getD 0 < 2 ^ 64 := by
      simpa using hfits
    have hpos : 0 < l := by
      have ho : offset.getD 0 < 2 ^ 64 := by
        cases offset with
        | none => decide
        | some o => exact hoffset o rfl
      omega
    simp only [hfits, false_or]
    constructor
    · intro h
      have hbehind : (sunkRows calls).length ≤ offset.getD 0 := by
        simp only [windowSize] at h
        omega
      exact ⟨hbehind, by rw [hzero _ hbehind, hzero _ (hle.trans hbehind)]⟩
    · exact fun h => (hzero _ h.1).symm

/-- The middle one of three rows, over two threads. -/
theorem orderBy_count_two_threads :
    let calls : List (RecordBatch × ℕ) :=
      [(⟨2, none, [.ofValues .int32 [.int 1, .int 3]]⟩, 1),
        (⟨1, some [1], [.ofValues .int32 [.int 4, .int 2]]⟩, 0)]
    ∃ b, Emits Platform.integral (.mergeSort ℕ)
        (create [(0, false)] [.int32] (some 1) (some 1) 2) calls b ∧ b.rows.length = 1 := by
  intro calls
  have hsort : PlainSortKeys [.int32] [(0, false)] := by
    intro s hs
    obtain rfl := List.mem_singleton.mp hs
    exact ⟨.int32, rfl, rfl⟩
  have hcalls : ValidCalls [.int32] 2 calls := by unfold ValidCalls; decide
  obtain ⟨b, hemits, hiff⟩ := @orderBy_count_iff Platform.integral (.mergeSort ℕ) [.int32]
    [(0, false)] (some 1) (some 1) (by decide) (by decide) 2 calls hcalls
    (hsort.sortableRows (sunkRows calls)) (by decide)
  exact ⟨b, hemits, hiff.mpr ⟨.inl (by decide), .inl (by decide)⟩⟩

/-- **The largest limit** with an offset of one wraps to zero: none of the rows behind the offset is
emitted. -/
theorem orderBy_wrap_loses_rows :
    let calls : List (RecordBatch × ℕ) := [(⟨2, none, [.ofValues .int32 [.int 1, .int 3]]⟩, 0)]
    ValidCalls [.int32] 1 calls ∧ SortableRows Platform.integral [.int32] [] (sunkRows calls) ∧
      windowSize (some (2 ^ 64 - 1)) (some 1) (sunkRows calls).length = 1 ∧
      ∀ b, Emits Platform.integral (.mergeSort ℕ)
        (create [] [.int32] (some (2 ^ 64 - 1)) (some 1) 1) calls b → b.rows.length = 0 := by
  intro calls
  have hcalls : ValidCalls [.int32] 1 calls := by unfold ValidCalls; decide
  have hsort : SortableRows Platform.integral [.int32] [] (sunkRows calls) := by
    simp [SortableRows]
  refine ⟨hcalls, hsort, rfl, ?_⟩
  intro b hemits
  obtain ⟨b', hemits', hcount⟩ :=
    exists_count (A := .mergeSort ℕ) (some (2 ^ 64 - 1)) (some 1) hcalls
    hsort (by decide)
  rw [hemits.unique hemits', hcount, atMost_totalLimit (by decide) (by decide), if_neg (by decide)]

end OrderBySinkSourceOperator

end ColumnarEngine
