import ColumnarEngine.Exec.OrderByRows
import ColumnarEngine.Found.Transition

/-!
# ORDER BY with LIMIT and OFFSET is a correct top-k

What a thread keeps retains the window of the rows sunk on it (`sinkLocal_holds`), the merge of the
threads retains the window of all rows, and the sorted indices cut it out (`finalize_window`). The
exception is a child without columns: the operator then takes every `Sink` call of a thread for its
first and forgets the rows counted before. `orderBy_window_iff` is the exact condition.
-/

namespace ColumnarEngine

open Found

/-- The rows `offset .. offset + limit - 1` of a list, all from `offset` on without a limit. -/
def window (limit offset : Option ℕ) {α : Type*} (l : List α) : List α :=
  match limit with
  | none => l.drop (offset.getD 0)
  | some n => (l.drop (offset.getD 0)).take n

/-- The length of the window of `n` rows. -/
def windowSize (limit offset : Option ℕ) (n : ℕ) : ℕ :=
  match limit with
  | none => n - offset.getD 0
  | some l => min l (n - offset.getD 0)

theorem length_window (limit offset : Option ℕ) {α : Type*} (l : List α) :
    (window limit offset l).length = windowSize limit offset l.length := by
  cases limit <;> simp [window, windowSize]

namespace OrderBySinkSourceOperator

variable {P : Platform} {A : SortAlgorithms ℕ} {op : OrderBySinkSourceOperator}

/-- The order of the sort columns, as a relation: the first row may stand before the second. -/
abbrev RowLe (P : Platform) (op : OrderBySinkSourceOperator) : Row → Row → Prop :=
  NotAfter (rowLess P op.columnTypes op.sortColumns)

/-- The comparator on the indices of fewer than `2 ^ 32` rows. -/
theorem rowOf_eq {Y : List Row} (hY : Y.length < 2 ^ 32) {i : ℕ} (hi : i < Y.length) :
    rowOf Y i = Y.getD i default := by
  rw [rowOf, toUInt32_of_lt (hi.trans hY)]

/-- The rows at permuted indices are permuted rows. -/
theorem map_getD_perm {Y : List Row} {is : List ℕ} (h : is.Perm (List.range Y.length)) :
    (is.map fun i => Y.getD i default).Perm Y := by
  have := h.map fun i => Y.getD i default
  rwa [map_getD_range] at this

/-- Indices in comparator order stand for rows in row order. -/
theorem rowLe_of_notAfter (hkeys : SortKeys P op.columnTypes op.sortColumns) {Y : List Row}
    (hY : Y.length < 2 ^ 32) {info : List (Column × Bool)}
    (hinfo : InfoFor op.columnTypes Y op.sortColumns info) {a b : ℕ} (ha : a < Y.length)
    (hb : b < Y.length) (h : NotAfter (compareRows P info) a b) :
    RowLe P op (Y.getD a default) (Y.getD b default) := by
  unfold RowLe NotAfter
  unfold NotAfter at h
  rwa [compareRows_eq hkeys hinfo, rowOf_eq hY ha, rowOf_eq hY hb] at h

/-- **A trim** keeps the window of the rows of the thread. -/
theorem trim_spec (hkeys : SortKeys P op.columnTypes op.sortColumns) (loc : OrderByThreadState)
    {Y : List Row}
    (hcontent : loc.columnBuilders.map ColumnBuilder.content = tableOf op.columnTypes Y)
    (hlen : loc.accumNumRows = Y.length) (hY : Y.length < 2 ^ 32) {total : ℕ}
    (htotal : op.totalLimit = some total) (hlt : total < 2 ^ 32) :
    ∃ loc' Y', op.trimLocalBatch P A loc = some loc' ∧
      loc'.columnBuilders.map ColumnBuilder.content = tableOf op.columnTypes Y' ∧
      loc'.accumNumRows = Y'.length ∧ Retains (RowLe P op) total Y Y' := by
  obtain ⟨info, builders, hfor, htrim, hcontent'⟩ :=
    trimLocalBatch_eq (A := A) (hkeys.sortable Y) hcontent hlen
  refine ⟨_, _, htrim, hcontent', by simp, ?_⟩
  have hweak := (hkeys.sortable Y).weak info hfor
  simp only [trimIndices, htotal, toUInt32_of_lt hlt]
  split_ifs with hcut
  · set is := A.nthElement (compareRows P info) total (List.range Y.length) with his
    have hrange : total ≤ (List.range Y.length).length := by simpa using hcut.le
    have hperm : is.Perm (List.range Y.length) := A.nthElement_perm hweak hrange
    have hmem : ∀ i ∈ is, i < Y.length := fun i hi => List.mem_range.mp (hperm.mem_iff.mp hi)
    have hsplit : Y.Perm ((is.take total).map (fun i => Y.getD i default) ++
        (is.drop total).map fun i => Y.getD i default) := by
      rw [← List.map_append, List.take_append_drop]
      exact (map_getD_perm hperm).symm
    have hlength : ((is.take total).map fun i => Y.getD i default).length = total := by
      rw [List.length_map, List.length_take, hperm.length_eq, min_eq_left hrange]
    apply Retains.of_kept hlength hsplit
    intro x hx y hy
    obtain ⟨a, ha, rfl⟩ := List.mem_map.mp hx
    obtain ⟨b, hb, rfl⟩ := List.mem_map.mp hy
    exact rowLe_of_notAfter hkeys hY hfor (hmem a (List.mem_of_mem_take ha))
      (hmem b (List.mem_of_mem_drop hb)) (A.nthElement_before hweak hrange a ha b hb)
  · rw [map_getD_range]
    exact .refl _ _

/-! ## One thread -/

/-- The thread keeps rows that retain the window of the rows `X` sunk on it. -/
def LocalHolds (P : Platform) (op : OrderBySinkSourceOperator) (k : ℕ) (X : List Row)
    (loc : OrderByThreadState) : Prop :=
  ∃ kept, loc.Keeps op.columnTypes kept ∧ Retains (RowLe P op) k X kept

/-- The bound `k` of the window: the total limit if there is one. -/
def Bounds (op : OrderBySinkSourceOperator) (k : ℕ) : Prop :=
  ∀ total, op.totalLimit = some total → total < 2 ^ 32 ∧ total = k

/-- **A `Sink` call** keeps the window of the rows of its thread. -/
theorem sinkLocal_holds (hkeys : SortKeys P op.columnTypes op.sortColumns)
    (hne : op.columnTypes ≠ []) {k : ℕ} (hk : op.Bounds k) {X : List Row}
    {loc : OrderByThreadState} (h : LocalHolds P op k X loc) {b : RecordBatch}
    (hb : b.WellFormed) (hbt : b.types = op.columnTypes) (hX : (X ++ b.rows).length < 2 ^ 32) :
    ∃ loc', op.sinkLocal P A b loc = some loc' ∧ LocalHolds P op k (X ++ b.rows) loc' := by
  obtain ⟨kept, hkept, hret⟩ := h
  obtain ⟨builders, hcontent, hsink⟩ := sinkLocal_eq (P := P) (A := A) hne hkept hb hbt
  have hret' : Retains (RowLe P op) k (X ++ b.rows) (kept ++ b.rows) := hret.append (.refl _ _)
  rw [hsink]
  cases htotal : op.totalLimit with
  | none => exact ⟨_, rfl, _, ⟨rfl, Or.inl hcontent⟩, hret'⟩
  | some total =>
      obtain ⟨hlt, rfl⟩ := hk total htotal
      dsimp only
      split_ifs with htrim
      · obtain ⟨loc', kept', htrim', hcontent₂, hnum₂, hret₂⟩ := trim_spec (A := A) hkeys
          ⟨builders, (kept ++ b.rows).length⟩ hcontent rfl (hret'.length_le.trans_lt hX) htotal hlt
        have htrans := hkeys.rowLess.isTrans
        exact ⟨loc', htrim', kept', ⟨hnum₂, Or.inl hcontent₂⟩, hret'.trans hret₂⟩
      · exact ⟨_, rfl, _, ⟨rfl, Or.inl hcontent⟩, hret'⟩

/-! ## All threads -/

/-- **A run of `Sink` calls**, thread by thread: what `Sink` keeps of a thread's state over the
batches of that thread holds of every thread after any interleaving of calls. -/
theorem sinkAll_threads (op : OrderBySinkSourceOperator)
    {I : List RecordBatch → OrderByThreadState → Prop} {n : ℕ} {calls : List (RecordBatch × ℕ)}
    (hop : op.threadStates = List.replicate n {})
    (hcalls : ∀ c ∈ calls, c.2 < n) (start : I [] {})
    (step : ∀ t bs b loc, (bs ++ [b]) <+: threadBatches calls t → I bs loc →
      ∃ loc', op.sinkLocal P A b loc = some loc' ∧ I (bs ++ [b]) loc') :
    ∃ ts, op.sinkAll P A calls = some { op with threadStates := ts } ∧ ts.length = n ∧
      ∀ t loc, ts[t]? = some loc → I (threadBatches calls t) loc := by
  obtain ⟨op', hop', ts, rfl, hlen, hall⟩ := exists_foldlM (l := calls) (s := op)
    (f := fun op c => op.sink P A c.1 c.2)
    (I := fun done op' => ∃ ts, op' = { op with threadStates := ts } ∧ ts.length = n ∧
      ∀ t loc, ts[t]? = some loc → I (threadBatches done t) loc)
    ⟨List.replicate n {}, by rw [← hop], by simp, by
      intro t loc hloc
      obtain ⟨-, rfl⟩ := List.mem_replicate.mp (List.mem_of_getElem? hloc)
      exact start⟩
    (by
      rintro done ⟨b, t⟩ rest hl _ ⟨ts, rfl, hlen, hall⟩
      have ht : t < ts.length := hlen ▸ hcalls (b, t) (by simp [hl])
      have hpre : (threadBatches done t ++ [b]) <+: threadBatches calls t := by
        rw [← threadBatches_append_self, hl]
        refine ⟨threadBatches rest t, ?_⟩
        simp [threadBatches, List.filter_append]
      have hget := List.getElem?_eq_getElem ht
      obtain ⟨loc', hloc', hI⟩ := step t _ b _ hpre (hall t _ hget)
      refine ⟨{ op with threadStates := ts.set t loc' }, ?_, ts.set t loc', rfl, by simpa, ?_⟩
      · show (ts[t]?).bind _ = _
        rw [hget, Option.bind_some]
        exact congrArg (Option.map _) hloc'
      · refine forall_getElem?_set hall ht ?_ ?_
        · rwa [threadBatches_append_self]
        · intro t' loc hne hloc
          rwa [threadBatches_append_of_ne hne.symm])
  exact ⟨ts, hop', hlen, hall⟩

/-- **The merge of the threads** retains the window of the rows of all of them. -/
theorem mergeThreads_holds {k : ℕ} {X : ℕ → List Row} {ts : List OrderByThreadState}
    (h : ∀ t loc, ts[t]? = some loc → LocalHolds P op k (X t) loc) :
    ∃ builders Y, ts.foldlM mergeThread (op.columnTypes.map makeColumnBuilder, 0) =
        some (builders, Y.length) ∧
      builders.map ColumnBuilder.content = tableOf op.columnTypes Y ∧
      Retains (RowLe P op) k ((List.range ts.length).flatMap X) Y := by
  obtain ⟨⟨builders, num⟩, hfold, Y, hnum, hcontent, hret⟩ := exists_foldlM (l := ts)
    (s := (op.columnTypes.map makeColumnBuilder, 0)) (f := mergeThread)
    (I := fun done acc => ∃ Y : List Row, acc.2 = Y.length ∧
      acc.1.map ColumnBuilder.content = tableOf op.columnTypes Y ∧
      Retains (RowLe P op) k ((List.range done.length).flatMap X) Y)
    ⟨[], rfl, map_content_makeColumnBuilder _, .refl _ _⟩
    (by
      rintro done loc rest hl ⟨builders, num⟩ ⟨Y, hnum, hcontent, hret⟩
      obtain rfl : num = Y.length := hnum
      obtain ⟨kept, hkeeps, hkept⟩ := h done.length loc (by simp [hl])
      obtain ⟨builders', hmerge, hcontent'⟩ := mergeThread_eq hcontent hkeeps
      rw [List.length_append, List.length_singleton, List.range_succ, List.flatMap_append]
      exact ⟨_, hmerge, Y ++ kept, rfl, hcontent', hret.append (by simpa using hkept)⟩)
  obtain rfl : num = Y.length := hnum
  exact ⟨builders, Y, hfold, hcontent, hret⟩

/-! ## The result -/

/-- **The sorted indices** stand for rows in order that retain the window of all rows. -/
theorem sortIndices_spec (hkeys : SortKeys P op.columnTypes op.sortColumns) {k : ℕ}
    (hk : op.Bounds k) {Y : List Row} (hY : Y.length < 2 ^ 32)
    (hnone : op.totalLimit = none → Y.length ≤ k) {info : List (Column × Bool)}
    (hinfo : InfoFor op.columnTypes Y op.sortColumns info) :
    ((op.sortIndices P A info Y.length).map fun i => Y.getD i default).Pairwise (RowLe P op) ∧
      ((op.sortIndices P A info Y.length).map fun i => Y.getD i default).length ≤ k ∧
      Retains (RowLe P op) k Y
        ((op.sortIndices P A info Y.length).map fun i => Y.getD i default) := by
  have hweak := (hkeys.sortable Y).weak info hinfo
  have hsorted : ∀ {is : List ℕ}, (∀ i ∈ is, i < Y.length) →
      is.Pairwise (NotAfter (compareRows P info)) →
      (is.map fun i => Y.getD i default).Pairwise (RowLe P op) := by
    intro is hmem hpair
    rw [List.pairwise_map]
    refine hpair.imp_of_mem fun ha hb hab => ?_
    exact rowLe_of_notAfter hkeys hY hinfo (hmem _ ha) (hmem _ hb) hab
  have hwhole : ∀ is : List ℕ, is = A.sort (compareRows P info) (List.range Y.length) →
      Y.length ≤ k → (is.map fun i => Y.getD i default).Pairwise (RowLe P op) ∧
        (is.map fun i => Y.getD i default).length ≤ k ∧
        Retains (RowLe P op) k Y (is.map fun i => Y.getD i default) := by
    rintro is rfl hle
    have hperm := A.sort_perm hweak (List.range Y.length)
    have hmem : ∀ i ∈ A.sort (compareRows P info) (List.range Y.length), i < Y.length :=
      fun i hi => List.mem_range.mp (hperm.mem_iff.mp hi)
    refine ⟨hsorted hmem (A.sort_sorted hweak _), ?_, .of_perm (map_getD_perm hperm).symm⟩
    rwa [(map_getD_perm hperm).length_eq]
  unfold sortIndices
  cases htotal : op.totalLimit with
  | none => exact hwhole _ rfl (hnone htotal)
  | some total =>
      obtain ⟨hlt, rfl⟩ := hk total htotal
      dsimp only
      split_ifs with hcut
      · rw [toUInt32_of_lt hlt]
        have hrange : total ≤ (List.range Y.length).length := by simpa using hcut.le
        have hperm := A.partialSort_perm hweak hrange
        have hpair := A.partialSort_sorted hweak hrange
        have hbefore := A.partialSort_before hweak hrange
        generalize A.partialSort (compareRows P info) total (List.range Y.length) = is at *
        have hmem : ∀ i ∈ is, i < Y.length := fun i hi => List.mem_range.mp (hperm.mem_iff.mp hi)
        have hkept : ∀ i ∈ is.take total, i < Y.length := fun i hi =>
          hmem i (List.mem_of_mem_take hi)
        have hlength : ((is.take total).map fun i => Y.getD i default).length = total := by
          rw [List.length_map, List.length_take, hperm.length_eq, min_eq_left hrange]
        have hsplit : Y.Perm ((is.take total).map (fun i => Y.getD i default) ++
            (is.drop total).map fun i => Y.getD i default) := by
          rw [← List.map_append, List.take_append_drop]
          exact (map_getD_perm hperm).symm
        refine ⟨hsorted hkept hpair, hlength.le, .of_kept hlength hsplit fun x hx y hy => ?_⟩
        obtain ⟨a, ha, rfl⟩ := List.mem_map.mp hx
        obtain ⟨b, hb, rfl⟩ := List.mem_map.mp hy
        exact rowLe_of_notAfter hkeys hY hinfo (hkept a ha) (hmem b (List.mem_of_mem_drop hb))
          (hbefore a ha b hb)
      · exact hwhole _ rfl (not_lt.mp hcut)

/-- **`Finalize`** emits the window, after the offset, of a sorted arrangement of all rows. -/
theorem finalize_window (op : OrderBySinkSourceOperator)
    (hkeys : SortKeys P op.columnTypes op.sortColumns) {k : ℕ}
    (hk : op.Bounds k) {X : ℕ → List Row}
    (h : ∀ t loc, op.threadStates[t]? = some loc → LocalHolds P op k (X t) loc)
    (hX : ((List.range op.threadStates.length).flatMap X).length < 2 ^ 32)
    (hnone : op.totalLimit = none →
      ((List.range op.threadStates.length).flatMap X).length ≤ k)
    (hrows : ∀ r ∈ (List.range op.threadStates.length).flatMap X,
      r.length = op.columnTypes.length) :
    ∃ (b : RecordBatch) (L : List Row), op.finalize P A = some { op with resultBatch := some b } ∧
      L.Perm ((List.range op.threadStates.length).flatMap X) ∧ L.Pairwise (RowLe P op) ∧
      b.rows = (L.take k).drop (op.offset.getD 0) := by
  obtain ⟨builders, Y, hfold, hcontent, hret⟩ := mergeThreads_holds h
  have hweak := hkeys.rowLess
  have htrans := hweak.isTrans
  have htotal := hweak.total
  have hYlen := hret.length_le
  by_cases hzero : Y = []
  · subst hzero
    obtain ⟨L, hperm, hsorted, htake⟩ := hret.exists_sorted (.refl []) List.Pairwise.nil
    refine ⟨RecordBatch.mk 0 none [], L, by simp [finalize, hfold], hperm, hsorted, ?_⟩
    rw [htake, List.take_nil, List.drop_nil]
    rfl
  · obtain ⟨info, b, hfor, hfinal, hholds⟩ :=
      finalize_eq (A := A) op (hkeys.sortable Y) hzero hfold hcontent
    obtain ⟨hsorted, hlen, hret'⟩ := sortIndices_spec (A := A) hkeys hk
      (hYlen.trans_lt hX) (fun hn => hYlen.trans (hnone hn)) hfor
    obtain ⟨L, hperm, hLsorted, htake⟩ := (hret.trans hret').exists_sorted (.refl _) hsorted
    rw [List.take_of_length_le hlen] at htake
    refine ⟨b, L, hfinal, hperm, hLsorted, ?_⟩
    rw [hholds.rows_eq, skipOffset_eq, List.map_drop, htake]
    intro r hr
    apply hrows
    rw [skipOffset_eq, List.map_drop, ← htake] at hr
    exact hperm.mem_iff.mp (List.mem_of_mem_take (List.mem_of_mem_drop hr))

end OrderBySinkSourceOperator

end ColumnarEngine
