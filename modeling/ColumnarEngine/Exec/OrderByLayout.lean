import ColumnarEngine.Exec.Layout
import ColumnarEngine.Exec.OrderByWindow

/-!
# The layout of what breakers emit

Aggregation and GROUP BY emit a batch of their declared layout after every run. ORDER BY does so
unless no row is left when it merges the threads: `Finalize` then returns a batch without columns.
`survivors` counts the rows a thread is left with, `KeepsRow` says in terms of the batches when some
row is left, and `breakers_layout_iff` puts the three breakers together.

The rows sunk may have floating sort columns; what the sorting algorithms are promised is that `<`
is a strict weak order on the values that occur (`SortableRows`).
-/

namespace ColumnarEngine

open Found

/-- The values a sort column is read at: those of the rows, and the default past the end. -/
def KeyValue (rows : List Row) (j : ℕ) : Type :=
  {v : Value // v = default ∨ ∃ r ∈ rows, r.getD j default = v}

/-- The sort columns exist and `<` is a strict weak order on the values they have in the rows. -/
def SortableRows (P : Platform) (types : List ColumnType) (sortColumns : List (ℕ × Bool))
    (rows : List Row) : Prop :=
  ∀ s ∈ sortColumns, ∃ t, types[s.1]? = some t ∧
    StrictWeak fun a b : KeyValue rows s.1 => Value.less P t a.1 b.1

section SortableRows

variable {P : Platform} {types : List ColumnType} {sortColumns : List (ℕ × Bool)}

/-- Columns that are not floating sort any rows. -/
theorem PlainSortKeys.sortableRows (h : PlainSortKeys types sortColumns) (rows : List Row) :
    SortableRows P types sortColumns rows := by
  intro s hs
  obtain ⟨t, ht, hplain⟩ := h s hs
  exact ⟨t, ht, (strictWeak_less hplain).comap Subtype.val⟩

/-- An element of a list of rows read at any index is a value of the rows or the default. -/
theorem getD_keyValue {rows Y : List Row} (hY : ∀ r ∈ Y, r ∈ rows) (i j : ℕ) :
    (rowOf Y i).getD j default = default ∨
      ∃ r ∈ rows, r.getD j default = (rowOf Y i).getD j default := by
  unfold rowOf
  by_cases hi : toUInt32 i < Y.length
  · rw [List.getD_eq_getElem _ _ hi]
    exact Or.inr ⟨_, hY _ (List.getElem_mem hi), rfl⟩
  · rw [List.getD_eq_default _ _ (not_lt.mp hi)]
    exact Or.inl rfl

/-- What sorts all rows sorts some of them. -/
theorem SortableRows.sortable {rows Y : List Row} (h : SortableRows P types sortColumns rows)
    (hY : ∀ r ∈ Y, r ∈ rows) : Sortable P types sortColumns Y := by
  refine ⟨fun s hs => (h s hs).imp fun _ ht => ht.1, ?_⟩
  intro info hinfo
  induction hinfo with
  | nil => exact StrictWeak.const_false
  | @cons s p sortColumns info hsp _ ih =>
      obtain ⟨hdesc, htype, hdata⟩ := hsp
      obtain ⟨t, ht, hless⟩ := h s List.mem_cons_self
      obtain rfl : p.1.type = t := by simpa [htype] using ht
      have hat := lessAt_eq (P := P) hdata
      have hweak : StrictWeak (lessAt P p.1) :=
        hat ▸ hless.comap fun i => ⟨(rowOf Y i).getD s.1 default, getD_keyValue hY i s.1⟩
      rw [compareRows_cons hweak]
      refine StrictWeak.thenBy ?_ (ih fun s' hs' => h s' (List.mem_cons_of_mem s hs'))
      cases p.2
      · exact hweak
      · exact hweak.flip

end SortableRows

/-! ## Counting the rows left -/

/-- The rows a thread is left with after batches of the given sizes. -/
def survivors (total : Option ℕ) (sizes : List ℕ) : ℕ :=
  sizes.foldl (fun k m => rowsLeft total (k + m)) 0

/-- A running sum that starts again from zero when it exceeds the bound. -/
def restartingSum (bound : ℕ) (sizes : List ℕ) : ℕ :=
  sizes.foldl (fun k m => if bound < k + m then 0 else k + m) 0

theorem survivors_append (total : Option ℕ) (sizes : List ℕ) (m : ℕ) :
    survivors total (sizes ++ [m]) = rowsLeft total (survivors total sizes + m) := by
  simp [survivors]

/-- Unless the narrowed bound is zero, a trim leaves a row if there is one. -/
theorem rowsLeft_ne_zero_iff {total : Option ℕ} (h : ∀ T, total = some T → toUInt32 T ≠ 0) (k : ℕ) :
    rowsLeft total k ≠ 0 ↔ k ≠ 0 := by
  cases total with
  | none => rfl
  | some T =>
      have hT := h T rfl
      simp only [rowsLeft]
      split_ifs with hcut
      · exact iff_of_true hT (by omega)
      · rfl

/-- Unless the narrowed bound is zero, some row survives if there is one. -/
theorem survivors_ne_zero_iff {total : Option ℕ} (h : ∀ T, total = some T → toUInt32 T ≠ 0)
    (sizes : List ℕ) : survivors total sizes ≠ 0 ↔ ∃ m ∈ sizes, m ≠ 0 := by
  induction sizes using List.reverseRecOn with
  | nil => simp [survivors]
  | append_singleton sizes m ih =>
      rw [survivors_append, rowsLeft_ne_zero_iff h, ne_eq, Nat.add_eq_zero_iff, not_and_or, ← ne_eq,
        ih]
      simp [or_and_right, exists_or]

/-- With a narrowed bound of zero a trim leaves no row. -/
theorem survivors_eq_restartingSum {T : ℕ} (h : toUInt32 T = 0) (sizes : List ℕ) :
    survivors (some T) sizes = restartingSum (max T (T * 10 % 2 ^ 64)) sizes := by
  have hstep : (fun k m => rowsLeft (some T) (k + m)) =
      fun k m => if max T (T * 10 % 2 ^ 64) < k + m then 0 else k + m := by
    funext k m
    simp only [rowsLeft, max_lt_iff, and_comm, h]
  rw [survivors, hstep, restartingSum]

/-- Some row is left when the threads are merged. Without a limit, and with a bound `limit + offset`
that does not narrow to zero, this needs a batch with a row; a bound that does drops the rows of a
thread whenever they exceed it. -/
def KeepsRow (total : Option ℕ) (n : ℕ) (calls : List (RecordBatch × ℕ)) : Prop :=
  if ∀ T ∈ total, toUInt32 T ≠ 0 then ∃ c ∈ calls, c.1.numRows ≠ 0
  else ∃ t < n, ∃ T ∈ total,
    restartingSum (max T (T * 10 % 2 ^ 64)) ((threadBatches calls t).map RecordBatch.numRows) ≠ 0

/-- The condition in terms of the rows left. -/
theorem keepsRow_iff {total : Option ℕ} {n : ℕ} {calls : List (RecordBatch × ℕ)}
    (hcalls : ∀ c ∈ calls, c.2 < n) : KeepsRow total n calls ↔
      ∃ t < n, survivors total ((threadBatches calls t).map RecordBatch.numRows) ≠ 0 := by
  unfold KeepsRow
  split_ifs with hbound
  · simp only [survivors_ne_zero_iff hbound, List.mem_map]
    constructor
    · rintro ⟨⟨b, t⟩, hc, hne⟩
      exact ⟨t, hcalls _ hc, _, ⟨b, mem_threadBatches.mpr hc, rfl⟩, hne⟩
    · rintro ⟨t, -, -, ⟨b, hb, rfl⟩, hne⟩
      exact ⟨(b, t), mem_threadBatches.mp hb, hne⟩
  · push Not at hbound
    obtain ⟨T, hT, hzero⟩ := hbound
    obtain rfl : total = some T := hT
    simp [survivors_eq_restartingSum hzero]

namespace OrderBySinkSourceOperator

variable {P : Platform} {A : SortAlgorithms ℕ} {op : OrderBySinkSourceOperator}

/-- The thread is left with some of the rows, as many as counted. -/
def LocalSized (op : OrderBySinkSourceOperator) (rows : List Row) (sizes : List ℕ)
    (loc : OrderByThreadState) : Prop :=
  ∃ kept, loc.Keeps op.columnTypes kept ∧ (∀ r ∈ kept, r ∈ rows) ∧
    kept.length = survivors op.totalLimit sizes

/-- A `Sink` call keeps the count. -/
theorem sinkLocal_sized (hne : op.columnTypes ≠ []) {rows : List Row}
    (hsort : SortableRows P op.columnTypes op.sortColumns rows) {sizes : List ℕ}
    {loc : OrderByThreadState} (h : op.LocalSized rows sizes loc) {b : RecordBatch}
    (hb : b.WellFormed) (hbt : b.types = op.columnTypes) (hrows : ∀ r ∈ b.rows, r ∈ rows) :
    ∃ loc', op.sinkLocal P A b loc = some loc' ∧
      op.LocalSized rows (sizes ++ [b.numRows]) loc' := by
  obtain ⟨kept, hkept, hsub, hlen⟩ := h
  obtain ⟨builders, hcontent, hsink⟩ := sinkLocal_eq (P := P) (A := A) hne hkept hb hbt
  have hsub' : ∀ r ∈ kept ++ b.rows, r ∈ rows := by
    intro r hr
    rcases List.mem_append.mp hr with hr | hr
    · exact hsub r hr
    · exact hrows r hr
  have hcount : survivors op.totalLimit (sizes ++ [b.numRows]) =
      rowsLeft op.totalLimit (kept ++ b.rows).length := by
    rw [survivors_append, List.length_append, hlen, hb.length_rows]
  rw [hsink]
  cases htotal : op.totalLimit with
  | none =>
      rw [htotal] at hcount
      exact ⟨_, rfl, _, ⟨rfl, Or.inl hcontent⟩, hsub', by rw [htotal, hcount, rowsLeft]⟩
  | some total =>
      dsimp only
      split_ifs with htrim
      · obtain ⟨info, builders', hfor, htrim', hcontent'⟩ := @trimLocalBatch_eq P A _ _
          (hsort.sortable hsub') ⟨builders, (kept ++ b.rows).length⟩ hcontent rfl
        have hweak := (hsort.sortable hsub').weak info hfor
        refine ⟨_, htrim', _, ⟨by simp, Or.inl hcontent'⟩, ?_, ?_⟩
        · intro r hr
          obtain ⟨i, hi, rfl⟩ := List.mem_map.mp hr
          rw [List.getD_eq_getElem _ _ (trimIndices_lt op hweak i hi)]
          exact hsub' _ (List.getElem_mem _)
        · rw [List.length_map, length_trimIndices op hweak, hcount, htotal]
          simp only [rowsLeft, htrim, true_and]
      · refine ⟨_, rfl, _, ⟨rfl, Or.inl hcontent⟩, hsub', ?_⟩
        rw [hcount, htotal]
        exact (if_neg fun h => htrim h.1).symm

/-- The merge of the threads has the rows they are left with. -/
theorem mergeThreads_sized {rows : List Row} {sizes : ℕ → List ℕ} {ts : List OrderByThreadState}
    (h : ∀ t loc, ts[t]? = some loc → op.LocalSized rows (sizes t) loc) :
    ∃ builders Y, ts.foldlM mergeThread (op.columnTypes.map makeColumnBuilder, 0) =
        some (builders, Y.length) ∧
      builders.map ColumnBuilder.content = tableOf op.columnTypes Y ∧ (∀ r ∈ Y, r ∈ rows) ∧
      Y.length = ((List.range ts.length).map fun t => survivors op.totalLimit (sizes t)).sum := by
  obtain ⟨⟨builders, num⟩, hfold, Y, hnum, hcontent, hsub, hsum⟩ := exists_foldlM (l := ts)
    (s := (op.columnTypes.map makeColumnBuilder, 0)) (f := mergeThread)
    (I := fun done acc => ∃ Y : List Row, acc.2 = Y.length ∧
      acc.1.map ColumnBuilder.content = tableOf op.columnTypes Y ∧ (∀ r ∈ Y, r ∈ rows) ∧
      Y.length = ((List.range done.length).map fun t => survivors op.totalLimit (sizes t)).sum)
    ⟨[], rfl, map_content_makeColumnBuilder _, by simp, by simp⟩
    (by
      rintro done loc rest hl ⟨builders, num⟩ ⟨Y, hnum, hcontent, hsub, hsum⟩
      obtain rfl : num = Y.length := hnum
      obtain ⟨kept, hkeeps, hkept, hlen⟩ := h done.length loc (by simp [hl])
      obtain ⟨builders', hmerge, hcontent'⟩ := mergeThread_eq hcontent hkeeps
      refine ⟨_, hmerge, Y ++ kept, rfl, hcontent', ?_, ?_⟩
      · intro r hr
        rcases List.mem_append.mp hr with hr | hr
        · exact hsub r hr
        · exact hkept r hr
      · rw [List.length_append, hsum, hlen, List.length_append, List.length_singleton,
          List.range_succ, List.map_append, List.sum_append, List.map_singleton,
          List.sum_singleton])
  obtain rfl : num = Y.length := hnum
  exact ⟨builders, Y, hfold, hcontent, hsub, hsum⟩

/-- The rows that survive on the threads. -/
def mergedRows (total : Option ℕ) (n : ℕ) (calls : List (RecordBatch × ℕ)) : ℕ :=
  ((List.range n).map fun t =>
    survivors total ((threadBatches calls t).map RecordBatch.numRows)).sum

/-- **With columns** a run emits the rows that survive on the threads, cut at the bound, without the
offset: in the layout of the child if there are any, and in a batch without columns if not. -/
theorem sized_run {types : List ColumnType} (hne : types ≠ []) {sortColumns : List (ℕ × Bool)}
    (limit offset : Option ℕ) {n : ℕ} {calls : List (RecordBatch × ℕ)}
    (hcalls : ValidCalls types n calls)
    (hsort : SortableRows P types sortColumns (sunkRows calls)) :
    let total := (create sortColumns types limit offset n).totalLimit
    ∃ b, Emits P A (create sortColumns types limit offset n) calls b ∧
      b.rows.length = cutRows total (mergedRows total n calls) - offset.getD 0 ∧
      (b.HasLayout types ↔ mergedRows total n calls ≠ 0) := by
  intro total
  set op := create sortColumns types limit offset n with hop
  obtain ⟨ts, hrun, hlen, hall⟩ := sinkAll_threads (P := P) (A := A) op (n := n) rfl
    (fun c hc => (hcalls c hc).2.2)
    (I := fun bs loc => op.LocalSized (sunkRows calls) (bs.map RecordBatch.numRows) loc)
    ⟨[], ⟨rfl, Or.inr ⟨rfl, rfl⟩⟩, by simp, rfl⟩
    (by
      intro t bs b loc hpre hI
      have hmem : (b, t) ∈ calls := mem_threadBatches.mp (hpre.subset (by simp))
      obtain ⟨hb, hbt, -⟩ := hcalls _ hmem
      rw [List.map_append, List.map_singleton]
      exact sinkLocal_sized hne hsort hI hb hbt fun r hr => List.mem_flatMap.mpr ⟨_, hmem, hr⟩)
  obtain ⟨builders, Y, hfold, hcontent, hsub, hsum⟩ := mergeThreads_sized hall
  rw [mergedRows, ← hlen, ← hsum]
  by_cases hY : Y = []
  · subst hY
    have hfinal : ({ op with threadStates := ts } : OrderBySinkSourceOperator).finalize P A =
        some { op with threadStates := ts, resultBatch := some ⟨0, none, []⟩ } := by
      simp [finalize, hfold]
    have hzero : cutRows total 0 = 0 := by cases total <;> rfl
    refine ⟨⟨0, none, []⟩, ⟨_, _, hrun, hfinal, rfl⟩, ?_,
      iff_of_false (fun h => hne h.1.symm) (by simp)⟩
    rw [List.length_nil, hzero, Nat.zero_sub]
    rfl
  · obtain ⟨info, b, hinfo, hfinal, hholds⟩ :=
      finalize_eq (A := A) { op with threadStates := ts } (hsort.sortable hsub) hY hfold
        hcontent
    have hrows : b.rows.length = b.numRows := by
      rw [RecordBatch.rows, List.length_map, RecordBatch.selected, hholds.1, List.length_range]
    refine ⟨b, ⟨_, _, hrun, hfinal, rfl⟩, ?_, iff_of_true ⟨hholds.types_eq, fun c hc => ?_⟩ ?_⟩
    · rw [hrows, hholds.2.1, List.length_map, skipOffset_eq, List.length_drop,
        length_sortIndices _ ((hsort.sortable hsub).weak info hinfo)]
      rfl
    · rw [hholds.size_eq c hc, hholds.2.1]
    · rwa [ne_eq, List.length_eq_zero_iff]

/-- Sort columns of a child without columns do not exist. -/
theorem sortColumns_eq_nil {sortColumns : List (ℕ × Bool)} {rows : List Row}
    (h : SortableRows P [] sortColumns rows) : sortColumns = [] := by
  apply List.eq_nil_iff_forall_not_mem.mpr
  intro s hs
  obtain ⟨t, ht, -⟩ := h s hs
  simp at ht

/-- **ORDER BY emits the layout of its child** exactly when that has no columns or some row is left
when the threads are merged. -/
theorem layout_iff {types : List ColumnType} {sortColumns : List (ℕ × Bool)}
    (limit offset : Option ℕ) {n : ℕ} {calls : List (RecordBatch × ℕ)}
    (hcalls : ValidCalls types n calls)
    (hsort : SortableRows P types sortColumns (sunkRows calls)) :
    ∃ b, Emits P A (create sortColumns types limit offset n) calls b ∧
      (b.HasLayout types ↔ types = [] ∨
        KeepsRow (create sortColumns types limit offset n).totalLimit n calls) := by
  by_cases hne : types = []
  · subst hne
    obtain rfl := sortColumns_eq_nil hsort
    exact ⟨_, columnless_run limit offset hcalls, iff_of_true ⟨rfl, by simp⟩ (Or.inl rfl)⟩
  · obtain ⟨b, hemits, -, hlayout⟩ := sized_run (P := P) (A := A) hne limit offset hcalls hsort
    refine ⟨b, hemits, ?_⟩
    rw [hlayout, keepsRow_iff fun c hc => (hcalls c hc).2.2, mergedRows, ne_eq,
      List.sum_eq_zero_iff]
    simp [hne]

end OrderBySinkSourceOperator

/-! ## The three breakers -/

/-- **What the breakers emit has the declared layout** after every run of aggregation and GROUP BY;
after a run of ORDER BY exactly when the child has no columns or some row is left. -/
theorem breakers_layout_iff (P : Platform) (A : SortAlgorithms ℕ) (ord : IterationOrder)
    {types : List ColumnType} {n : ℕ} (hn : 0 < n) {calls : List (RecordBatch × ℕ)}
    (hcalls : ValidCalls types n calls) :
    (∀ aggs : List AggregationFunction, (∀ f ∈ aggs, f.Placed types) →
      ∃ op op' b, (AggregationSinkSourceOperator.create P aggs n).sinkAll P calls = some op ∧
        op.finalize P = some op' ∧ op'.getData.1 = some b ∧
        b.HasLayout (aggs.map AggregationFunction.columnType)) ∧
    (∀ idxs keyTypes (aggs : List AggregationFunction), KeyColumns types idxs keyTypes →
      (∀ f ∈ aggs, f.Placed types) →
      ∃ op op' b,
        (GroupBySinkSourceOperator.create idxs keyTypes aggs n).sinkAll P calls = some op ∧
        op.finalize P ord = some op' ∧ op'.getData.1 = some b ∧
        b.HasLayout (keyTypes ++ aggs.map AggregationFunction.columnType)) ∧
    ∀ sortColumns limit offset, SortableRows P types sortColumns (sunkRows calls) →
      ∃ b, OrderBySinkSourceOperator.Emits P A
          (OrderBySinkSourceOperator.create sortColumns types limit offset n) calls b ∧
        (b.HasLayout types ↔ types = [] ∨ KeepsRow
          (OrderBySinkSourceOperator.create sortColumns types limit offset n).totalLimit n calls) :=
  ⟨fun _ haggs => AggregationSinkSourceOperator.emits_layout hn haggs hcalls,
    fun _ _ _ hkeys haggs => GroupBySinkSourceOperator.emits_layout ord hn hkeys haggs hcalls,
    fun _ limit offset hsort =>
      OrderBySinkSourceOperator.layout_iff limit offset hcalls hsort⟩

/-- Two threads, one of them idle, an average by name, and an order with an offset past the end. -/
theorem breakers_layout_idle_thread :
    let types : List ColumnType := [.string, .int64]
    let calls : List (RecordBatch × ℕ) := [(⟨1, some [1], [.ofValues .string [.str [], .str []],
      .ofValues .int64 [.int 7, .int 8]]⟩, 1)]
    let avg : AggregationFunction := ⟨.avg .int64 .longdouble .int128, 1, .longdouble⟩
    (∃ op op' b, (AggregationSinkSourceOperator.create Platform.integral [avg] 2).sinkAll
        Platform.integral calls = some op ∧
      op.finalize Platform.integral = some op' ∧ op'.getData.1 = some b ∧
      b.HasLayout [.longdouble]) ∧
    (∃ op op' b, (GroupBySinkSourceOperator.create [0] [.string] [avg] 2).sinkAll
        Platform.integral calls = some op ∧
      op.finalize Platform.integral ⟨id, fun _ => .refl _⟩ = some op' ∧
      op'.getData.1 = some b ∧ b.HasLayout [.string, .longdouble]) ∧
    ∃ b, OrderBySinkSourceOperator.Emits Platform.integral (.mergeSort ℕ)
        (OrderBySinkSourceOperator.create [(1, true)] types (some 3) (some 5) 2) calls b ∧
      (b.HasLayout types ↔ types = [] ∨ KeepsRow (some 8) 2 calls) := by
  intro types calls avg
  have havg : ∀ f ∈ [avg], f.Placed types := by
    intro f hf
    obtain rfl := List.mem_singleton.mp hf
    exact ⟨by decide, rfl⟩
  obtain ⟨hagg, hgroup, horder⟩ := breakers_layout_iff Platform.integral (.mergeSort ℕ)
    ⟨id, fun _ => .refl _⟩ (n := 2) (by decide)
    (by unfold ValidCalls; decide : ValidCalls types 2 calls)
  refine ⟨hagg [avg] havg, hgroup [0] [.string] [avg] (.cons rfl .nil) havg, ?_⟩
  refine horder [(1, true)] (some 3) (some 5) (PlainSortKeys.sortableRows ?_ _)
  intro s hs
  obtain rfl := List.mem_singleton.mp hs
  exact ⟨.int64, rfl, rfl⟩

/-- **ORDER BY of an empty input** emits a batch without the column of its schema. -/
theorem orderBy_empty_loses_layout :
    ValidCalls [.int32] 1 [] ∧
      SortableRows Platform.integral [.int32] [(0, false)] (sunkRows []) ∧
      ∀ b, OrderBySinkSourceOperator.Emits Platform.integral (.mergeSort ℕ)
        (OrderBySinkSourceOperator.create [(0, false)] [.int32] none none 1) [] b →
        b = ⟨0, none, []⟩ ∧ ¬ b.HasLayout [.int32] := by
  refine ⟨by simp [ValidCalls], PlainSortKeys.sortableRows ?_ _, fun b hemits => ?_⟩
  · intro s hs
    obtain rfl := List.mem_singleton.mp hs
    exact ⟨.int32, rfl, rfl⟩
  · obtain rfl : b = ⟨0, none, []⟩ := hemits.unique ⟨_, _, rfl, rfl, rfl⟩
    exact ⟨rfl, fun h => by simpa [RecordBatch.types] using h.1⟩

end ColumnarEngine
