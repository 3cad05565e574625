import ColumnarEngine.Exec.OrderBy
import ColumnarEngine.Found.Partial
import ColumnarEngine.Found.Window

/-!
# ORDER BY: from row indices to rows

The operator sorts row indices by a comparator that reads columns. When the columns hold the rows
`Y`, the comparator on indices is the lexicographic comparator `rowLess` on the rows of `Y`
(`compareRows_eq`), and copying the rows at a list of indices holds these rows (`rebuild_content`).
`trimLocalBatch_eq` and `finalize_eq` read a trim and `Finalize` as operations on rows; all they
need is that the comparator is a strict weak order on the rows at hand (`Sortable`).
-/

namespace ColumnarEngine

open Found

variable {P : Platform} {A : SortAlgorithms ℕ} {types : List ColumnType}
  {sortColumns : List (ℕ × Bool)}

/-- One sort column: the column's `<`, reversed for a descending column. -/
def keyLess (P : Platform) (types : List ColumnType) (s : ℕ × Bool) (r r' : Row) : Bool :=
  let less := Value.less P (types.getD s.1 default)
  if s.2 then less (r'.getD s.1 default) (r.getD s.1 default)
  else less (r.getD s.1 default) (r'.getD s.1 default)

/-- The lexicographic comparator of the sort columns. -/
def rowLess (P : Platform) (types : List ColumnType) (sortColumns : List (ℕ × Bool)) :
    Row → Row → Bool :=
  lexLess (sortColumns.map (keyLess P types))

/-- The sort columns name columns whose `<` is a strict weak order. -/
def SortKeys (P : Platform) (types : List ColumnType) (sortColumns : List (ℕ × Bool)) : Prop :=
  ∀ s ∈ sortColumns, ∃ t, types[s.1]? = some t ∧ StrictWeak (Value.less P t)

/-- Outside the floating types `<` is a strict weak order. -/
theorem strictWeak_less {t : ColumnType} (ht : t.isFloating = false) :
    StrictWeak (Value.less P t) :=
  StrictWeak.of_lt (f := id) (Value.less_iff P ht)

namespace SortKeys

theorem keyLess (h : SortKeys P types sortColumns) {s : ℕ × Bool} (hs : s ∈ sortColumns) :
    StrictWeak (keyLess P types s) := by
  obtain ⟨t, ht, hless⟩ := h s hs
  have hd : types.getD s.1 default = t := by simp [ht]
  have hkey := hless.comap fun r : Row => r.getD s.1 default
  unfold ColumnarEngine.keyLess
  rw [hd]
  by_cases hdesc : s.2 = true
  · simpa [hdesc] using hkey.flip
  · simpa [hdesc] using hkey

theorem rowLess (h : SortKeys P types sortColumns) : StrictWeak (rowLess P types sortColumns) := by
  apply StrictWeak.lexLess
  intro lt hlt
  obtain ⟨s, hs, rfl⟩ := List.mem_map.mp hlt
  exact h.keyLess hs

end SortKeys

/-- The row an index stands for, once narrowed. -/
def rowOf (Y : List Row) (i : ℕ) : Row := Y.getD (toUInt32 i) default

/-- `cols_info` of columns that hold the rows `Y`: each sort column with its direction. -/
def InfoFor (types : List ColumnType) (Y : List Row) (sortColumns : List (ℕ × Bool))
    (info : List (Column × Bool)) : Prop :=
  List.Forall₂ (fun s p => p.2 = s.2 ∧ types[s.1]? = some p.1.type ∧
    p.1.data = Y.map fun r => r.getD s.1 default) sortColumns info

/-- The sort columns name columns. -/
theorem SortKeys.columns (h : SortKeys P types sortColumns) :
    ∀ s ∈ sortColumns, ∃ t, types[s.1]? = some t :=
  fun s hs => (h s hs).imp fun _ ht => ht.1

theorem colsInfo_eq (hsort : ∀ s ∈ sortColumns, ∃ t, types[s.1]? = some t)
    {columns : List Column} {Y : List Row} (h : HoldRows types columns Y) :
    ∃ info, colsInfo columns Y.length sortColumns = some info ∧
      InfoFor types Y sortColumns info := by
  apply exists_mapM
  intro s hs
  obtain ⟨t, ht⟩ := hsort s hs
  obtain ⟨c, hc, htype, hdata⟩ := h.getElem ht
  refine ⟨(c, s.2), ?_, rfl, by rw [ht, htype], hdata⟩
  simp [hc, Column.size, hdata]

/-- The `<` of a column on narrowed indices. -/
def lessAt (P : Platform) (c : Column) (a b : ℕ) : Bool :=
  Value.less P c.type (c.data.getD (toUInt32 a) default) (c.data.getD (toUInt32 b) default)

/-- On a column that holds a sort column of the rows, it compares the values of the rows. -/
theorem lessAt_eq {Y : List Row} {c : Column} {j : ℕ}
    (hdata : c.data = Y.map fun r => r.getD j default) :
    lessAt P c = fun a b =>
      Value.less P c.type ((rowOf Y a).getD j default) ((rowOf Y b).getD j default) := by
  funext a b
  simp only [lessAt, hdata, getD_map_rows, rowOf]

/-- The comparator compares by the first column and breaks ties by the others. -/
theorem compareRows_cons {c : Column} (hless : StrictWeak (lessAt P c)) (isDesc : Bool)
    (info : List (Column × Bool)) : compareRows P ((c, isDesc) :: info) =
      thenBy (fun a b => if isDesc then lessAt P c b a else lessAt P c a b)
        (compareRows P info) := by
  funext a b
  have hasymm := hless.asymm a b
  have hcompare : compareElements P c (toUInt32 a) (toUInt32 b) =
      if lessAt P c a b then -1 else if lessAt P c b a then 1 else 0 := rfl
  simp only [compareRows, hcompare, thenBy]
  rcases Bool.eq_false_or_eq_true (lessAt P c a b) with hab | hab <;>
    rcases Bool.eq_false_or_eq_true (lessAt P c b a) with hba | hba <;>
      cases isDesc <;> simp_all

/-- **The comparator on indices is the comparator on rows.** -/
theorem compareRows_eq (hkeys : SortKeys P types sortColumns) {Y : List Row}
    {info : List (Column × Bool)} (h : InfoFor types Y sortColumns info) (a b : ℕ) :
    compareRows P info a b = rowLess P types sortColumns (rowOf Y a) (rowOf Y b) := by
  induction h with
  | nil => rfl
  | @cons s p sortColumns info hsp _ ih =>
      obtain ⟨hdesc, htype, hdata⟩ := hsp
      obtain ⟨t, ht, hless⟩ := hkeys s List.mem_cons_self
      obtain rfl : p.1.type = t := by simpa [htype] using ht
      have hih := ih fun s' hs' => hkeys s' (List.mem_cons_of_mem s hs')
      have hd : types.getD s.1 default = p.1.type := by simp [htype]
      have hat := lessAt_eq (P := P) hdata
      have hweak : StrictWeak (lessAt P p.1) :=
        hat ▸ hless.comap fun i => (rowOf Y i).getD s.1 default
      rw [show rowLess P types (s :: sortColumns) =
        thenBy (keyLess P types s) (rowLess P types sortColumns) from rfl,
        compareRows_cons hweak, hdesc]
      simp only [thenBy, keyLess, hd, hih, hat]

/-- The sort columns exist and the comparator on the indices of the rows `Y` is a strict weak
order. -/
structure Sortable (P : Platform) (types : List ColumnType) (sortColumns : List (ℕ × Bool))
    (Y : List Row) : Prop where
  columns : ∀ s ∈ sortColumns, ∃ t, types[s.1]? = some t
  weak : ∀ info, InfoFor types Y sortColumns info → StrictWeak (compareRows P info)

/-- Columns ordered on all values sort any rows. -/
theorem SortKeys.sortable (hkeys : SortKeys P types sortColumns) (Y : List Row) :
    Sortable P types sortColumns Y := by
  refine ⟨hkeys.columns, ?_⟩
  intro info hinfo
  have hcmp : compareRows P info = fun a b =>
      ColumnarEngine.rowLess P types sortColumns (rowOf Y a) (rowOf Y b) := by
    funext a b
    exact compareRows_eq hkeys hinfo a b
  rw [hcmp]
  exact hkeys.rowLess.comap (rowOf Y)

/-! ## Copying rows by index -/

/-- Fresh builders filled with the rows at the given indices hold these rows. -/
theorem rebuild_content {op : OrderBySinkSourceOperator} {columns : List Column} {Y : List Row}
    (h : HoldRows op.columnTypes columns Y) {is : List ℕ} (his : ∀ i ∈ is, i < Y.length) :
    ∃ builders, op.rebuild columns is = some builders ∧
      builders.map ColumnBuilder.content =
        tableOf op.columnTypes (is.map fun i => Y.getD i default) := by
  have hcopy := copyColumns_tableOf (map_content_makeColumnBuilder op.columnTypes) h.map_type
    (h.visit_some his)
  simpa [OrderBySinkSourceOperator.rebuild] using hcopy

namespace OrderBySinkSourceOperator

variable {op : OrderBySinkSourceOperator} {Y : List Row}

/-! ## A trim -/

/-- A bound that cuts the indices is one of them, also when narrowed. -/
theorem toUInt32_le_range {total n : ℕ} (h : total < n) :
    toUInt32 total ≤ (List.range n).length := by
  rw [List.length_range]
  exact (toUInt32_le total).trans h.le

/-- The indices a trim keeps are in range. -/
theorem trimIndices_lt (op : OrderBySinkSourceOperator) {info : List (Column × Bool)}
    (hweak : StrictWeak (compareRows P info)) {n : ℕ} : ∀ i ∈ op.trimIndices P A info n, i < n := by
  intro i hi
  unfold trimIndices at hi
  have hrange : ∀ {i}, i ∈ List.range n → i < n := List.mem_range.mp
  cases htotal : op.totalLimit with
  | none => exact hrange (by simpa [htotal] using hi)
  | some total =>
      simp only [htotal] at hi
      split_ifs at hi with hcut
      · have hle := toUInt32_le_range hcut
        exact hrange ((A.nthElement_perm hweak hle).mem_iff.mp (List.mem_of_mem_take hi))
      · exact hrange hi

/-- How many indices a trim keeps. -/
theorem length_trimIndices (op : OrderBySinkSourceOperator) {info : List (Column × Bool)}
    (hweak : StrictWeak (compareRows P info)) (n : ℕ) : (op.trimIndices P A info n).length =
      match op.totalLimit with
      | none => n
      | some total => if total < n then toUInt32 total else n := by
  unfold trimIndices
  cases op.totalLimit with
  | none => exact List.length_range
  | some total =>
      dsimp only
      split_ifs with hcut
      · have hle := toUInt32_le_range hcut
        rw [List.length_take, (A.nthElement_perm hweak hle).length_eq, min_eq_left hle]
      · exact List.length_range

/-- **A trim** leaves the rows at the indices it keeps. -/
theorem trimLocalBatch_eq (h : Sortable P op.columnTypes op.sortColumns Y)
    {loc : OrderByThreadState}
    (hcontent : loc.columnBuilders.map ColumnBuilder.content = tableOf op.columnTypes Y)
    (hlen : loc.accumNumRows = Y.length) :
    ∃ info builders, InfoFor op.columnTypes Y op.sortColumns info ∧
      op.trimLocalBatch P A loc =
        some ⟨builders, (op.trimIndices P A info Y.length).length⟩ ∧
      builders.map ColumnBuilder.content = tableOf op.columnTypes
        ((op.trimIndices P A info Y.length).map fun i => Y.getD i default) := by
  have hcols : HoldRows op.columnTypes (loc.columnBuilders.map ColumnBuilder.finish) Y :=
    map_content_finish hcontent
  obtain ⟨info, hinfo, hfor⟩ := colsInfo_eq h.columns hcols
  have hlt := trimIndices_lt (A := A) op (n := Y.length) (h.weak info hfor)
  obtain ⟨builders, hbuilders, hcontent'⟩ := rebuild_content hcols hlt
  unfold trimLocalBatch
  split_ifs with hzero
  · have hY : Y = [] := List.length_eq_zero_iff.mp (hlen ▸ hzero)
    have hnil : op.trimIndices P A info Y.length = [] := by
      rw [List.eq_nil_iff_forall_not_mem]
      intro i hi
      simpa [hY] using hlt i hi
    refine ⟨info, loc.columnBuilders, hfor, ?_, ?_⟩
    · rw [hnil, List.length_nil, ← hzero]
    · rw [hnil, List.map_nil, hcontent, hY]
  · exact ⟨info, builders, hfor, by simp [hlen, hinfo, hbuilders], hcontent'⟩

/-! ## The state of a thread -/

end OrderBySinkSourceOperator

/-- The thread has accumulated the rows `kept`. The builders are made at the first `Sink`. -/
def OrderByThreadState.Keeps (types : List ColumnType) (kept : List Row)
    (loc : OrderByThreadState) : Prop :=
  loc.accumNumRows = kept.length ∧
    (loc.columnBuilders.map ColumnBuilder.content = tableOf types kept ∨
      loc.columnBuilders = [] ∧ kept = [])

namespace OrderBySinkSourceOperator

variable {op : OrderBySinkSourceOperator} {Y : List Row}

/-- **A `Sink` call** of a child with columns appends the rows of the batch and may trim. -/
theorem sinkLocal_eq (hne : op.columnTypes ≠ []) {kept : List Row} {loc : OrderByThreadState}
    (h : loc.Keeps op.columnTypes kept) {b : RecordBatch} (hb : b.WellFormed)
    (hbt : b.types = op.columnTypes) :
    ∃ builders, builders.map ColumnBuilder.content = tableOf op.columnTypes (kept ++ b.rows) ∧
      op.sinkLocal P A b loc =
        match op.totalLimit with
        | none => some ⟨builders, (kept ++ b.rows).length⟩
        | some total =>
            if total * 10 % 2 ^ 64 < (kept ++ b.rows).length then
              op.trimLocalBatch P A ⟨builders, (kept ++ b.rows).length⟩
            else some ⟨builders, (kept ++ b.rows).length⟩ := by
  obtain ⟨haccum, hbuilders⟩ := h
  obtain ⟨start, hstart, hcontent, hnum⟩ : ∃ start : OrderByThreadState,
      (if loc.columnBuilders.isEmpty then ⟨op.columnTypes.map makeColumnBuilder, 0⟩ else loc) =
        start ∧
      start.columnBuilders.map ColumnBuilder.content = tableOf op.columnTypes kept ∧
      start.accumNumRows = kept.length := by
    rcases hbuilders with hcontent | ⟨hnil, rfl⟩
    · have hnonempty : loc.columnBuilders.isEmpty = false := by
        rw [Bool.eq_false_iff, ne_eq, List.isEmpty_iff]
        intro hnil
        rw [hnil] at hcontent
        have hlen := congrArg List.length hcontent
        rw [length_tableOf] at hlen
        exact hne (List.length_eq_zero_iff.mp (by simpa using hlen.symm))
      exact ⟨loc, by simp [hnonempty], hcontent, haccum⟩
    · exact ⟨⟨op.columnTypes.map makeColumnBuilder, 0⟩, by simp [hnil],
        map_content_makeColumnBuilder _, rfl⟩
  obtain ⟨builders, hcopy, hcontent'⟩ := copyColumns_tableOf hcontent hbt
    fun j hj => hb.visit_rows hj
  have hlen : kept.length + b.numRows = (kept ++ b.rows).length := by simp [hb.length_rows]
  refine ⟨builders, hcontent', ?_⟩
  unfold sinkLocal
  cases op.totalLimit with
  | none => simp only [hstart, hcopy, Option.bind_some, hnum, hlen]
  | some total => simp only [hstart, hcopy, Option.bind_some, hnum, hlen]

/-- **One round of the merge** appends the rows of the thread. -/
theorem mergeThread_eq {types : List ColumnType} {builders : List ColumnBuilder}
    (hcontent : builders.map ColumnBuilder.content = tableOf types Y) {kept : List Row}
    {loc : OrderByThreadState} (h : loc.Keeps types kept) :
    ∃ builders', mergeThread (builders, Y.length) loc = some (builders', (Y ++ kept).length) ∧
      builders'.map ColumnBuilder.content = tableOf types (Y ++ kept) := by
  obtain ⟨haccum, hbuilders⟩ := h
  unfold mergeThread
  split_ifs with hzero
  · have hnil : kept = [] := List.length_eq_zero_iff.mp (haccum ▸ hzero)
    rw [hnil, List.append_nil]
    exact ⟨builders, rfl, hcontent⟩
  · have hlocal : loc.columnBuilders.map ColumnBuilder.content = tableOf types kept := by
      rcases hbuilders with hbuilders | ⟨-, rfl⟩
      · exact hbuilders
      · exact absurd haccum hzero
    have hcols := HoldRows.of_builders hlocal
    obtain ⟨builders', hcopy, hcontent'⟩ :=
      copyColumns_tableOf hcontent hcols.map_type hcols.visit_none
    exact ⟨builders', by simp [hcopy, haccum], hcontent'⟩

/-! ## The result -/

theorem skipOffset_eq (is : List ℕ) : op.skipOffset is = is.drop (op.offset.getD 0) := by
  unfold skipOffset
  cases op.offset with
  | none => rfl
  | some off =>
      dsimp only
      split_ifs with hpos hlen
      · exact (List.drop_eq_nil_of_le hlen).symm
      · rfl
      · obtain rfl : off = 0 := by omega
        rfl

/-- The sorted indices are in range. -/
theorem sortIndices_lt {info : List (Column × Bool)} (hweak : StrictWeak (compareRows P info))
    {n : ℕ} : ∀ i ∈ op.sortIndices P A info n, i < n := by
  intro i hi
  have hsort := A.sort_perm hweak (List.range n)
  unfold sortIndices at hi
  cases htotal : op.totalLimit with
  | none => exact List.mem_range.mp (hsort.mem_iff.mp (by simpa [htotal] using hi))
  | some total =>
      simp only [htotal] at hi
      split_ifs at hi with hcut
      · have hle := toUInt32_le_range hcut
        exact List.mem_range.mp
          ((A.partialSort_perm hweak hle).mem_iff.mp (List.mem_of_mem_take hi))
      · exact List.mem_range.mp (hsort.mem_iff.mp hi)

/-- **`Finalize`** on merged threads that hold some rows emits the rows at the sorted indices after
the offset. -/
theorem finalize_eq (op : OrderBySinkSourceOperator)
    (h : Sortable P op.columnTypes op.sortColumns Y) (hne : Y ≠ [])
    {builders : List ColumnBuilder}
    (hfold : op.threadStates.foldlM mergeThread (op.columnTypes.map makeColumnBuilder, 0) =
      some (builders, Y.length))
    (hcontent : builders.map ColumnBuilder.content = tableOf op.columnTypes Y) :
    ∃ info b, InfoFor op.columnTypes Y op.sortColumns info ∧
      op.finalize P A = some { op with resultBatch := some b } ∧
      b.Holds op.columnTypes ((op.skipOffset (op.sortIndices P A info Y.length)).map
        fun i => Y.getD i default) := by
  have hcols := HoldRows.of_builders hcontent
  obtain ⟨info, hinfo, hfor⟩ := colsInfo_eq h.columns hcols
  set is := op.skipOffset (op.sortIndices P A info Y.length) with his
  have hlt : ∀ i ∈ is, i < Y.length := by
    intro i hi
    rw [his, skipOffset_eq] at hi
    exact sortIndices_lt (h.weak info hfor) i (List.mem_of_mem_drop hi)
  obtain ⟨builders', hbuilders', hcontent'⟩ := rebuild_content hcols hlt
  refine ⟨info, ⟨is.length, none, builders'.map ColumnBuilder.finish⟩, hfor, ?_, rfl,
    (List.length_map _).symm, HoldRows.of_builders hcontent'⟩
  unfold finalize
  simp only [hfold, Option.bind_some]
  rw [if_neg (mt List.length_eq_zero_iff.mp hne)]
  simp [hinfo, ← his, hbuilders']

end OrderBySinkSourceOperator

end ColumnarEngine
