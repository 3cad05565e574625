import ColumnarEngine.Exec.SinkCalls
import ColumnarEngine.Exec.Table
import ColumnarEngine.Found.StrictWeak

/-!
# ORDER BY with LIMIT and OFFSET

`OrderBySinkSourceOperator`. Each thread appends its batches to column builders and, when ten times
the bound has accumulated, keeps only `total_limit` rows by `nth_element`; `Finalize` merges the
threads, sorts row indices and drops the offset.

The bound is a `size_t`, the comparator takes its indices as `uint32_t`, and `nth_element` and
`partial_sort` are given the bound narrowed to `uint32_t`.
-/

namespace ColumnarEngine

open Found

/-- `OrderByThreadState`. -/
structure OrderByThreadState where
  columnBuilders : List ColumnBuilder := []
  accumNumRows : ℕ := 0

/-- The members of the operator. -/
structure OrderBySinkSourceOperator where
  sortColumns : List (ℕ × Bool)
  columnTypes : List ColumnType
  limit : Option ℕ
  offset : Option ℕ
  totalLimit : Option ℕ
  threadStates : List OrderByThreadState
  resultBatch : Option RecordBatch
  emitted : Bool

/-- `Compare<ColumnT>`: two elements of a column, as -1, 0 or 1. -/
def compareElements (P : Platform) (c : Column) (a b : ℕ) : ℤ :=
  let x := c.data.getD a default
  let y := c.data.getD b default
  if Value.less P c.type x y then -1 else if Value.less P c.type y x then 1 else 0

/-- The comparator built from `cols_info`: columns with their direction, on narrowed indices. -/
def compareRows (P : Platform) : List (Column × Bool) → ℕ → ℕ → Bool
  | [], _, _ => false
  | (c, isDesc) :: info, a, b =>
      let res := compareElements P c (toUInt32 a) (toUInt32 b)
      if res ≠ 0 then (if isDesc then decide (0 < res) else decide (res < 0))
      else compareRows P info a b

/-- `cols_info` for a batch of `numRows` rows: the comparator reads any of these rows. -/
def colsInfo (columns : List Column) (numRows : ℕ) (sortColumns : List (ℕ × Bool)) :
    Option (List (Column × Bool)) :=
  sortColumns.mapM fun s =>
    (columns[s.1]?).bind fun c => if numRows ≤ c.size then some (c, s.2) else none

namespace OrderBySinkSourceOperator

variable (P : Platform) (A : SortAlgorithms ℕ)

/-- The constructor: `total_limit_ = limit + offset`, as `size_t`. -/
def create (sortColumns : List (ℕ × Bool)) (columnTypes : List ColumnType)
    (limit offset : Option ℕ) (numThreads : ℕ) : OrderBySinkSourceOperator where
  sortColumns := sortColumns
  columnTypes := columnTypes
  limit := limit
  offset := offset
  totalLimit := limit.map fun l =>
    match offset with
    | none => l
    | some o => (l + o) % 2 ^ 64
  threadStates := List.replicate numThreads {}
  resultBatch := none
  emitted := false

/-- Fresh builders filled with the rows of `columns` at the given indices. -/
def rebuild (op : OrderBySinkSourceOperator) (columns : List Column) (indices : List ℕ) :
    Option (List ColumnBuilder) :=
  copyColumns op.columnTypes.length (op.columnTypes.map makeColumnBuilder) columns (some indices)

/-- The row indices a trim keeps. -/
def trimIndices (op : OrderBySinkSourceOperator) (info : List (Column × Bool)) (numRows : ℕ) :
    List ℕ :=
  let indices := List.range numRows
  match op.totalLimit with
  | none => indices
  | some total =>
      if total < numRows then
        (A.nthElement (compareRows P info) (toUInt32 total) indices).take (toUInt32 total)
      else indices

/-- `TrimLocalBatch(thread_id)` on the state of the thread. -/
def trimLocalBatch (op : OrderBySinkSourceOperator) (loc : OrderByThreadState) :
    Option OrderByThreadState :=
  if loc.accumNumRows = 0 then some loc
  else
    let columns := loc.columnBuilders.map ColumnBuilder.finish
    (colsInfo columns loc.accumNumRows op.sortColumns).bind fun info =>
      let indices := op.trimIndices P A info loc.accumNumRows
      (op.rebuild columns indices).map fun builders => ⟨builders, indices.length⟩

/-- `Sink(batch, thread_id)` on the state of the thread. -/
def sinkLocal (op : OrderBySinkSourceOperator) (batch : RecordBatch) (loc : OrderByThreadState) :
    Option OrderByThreadState :=
  let start : OrderByThreadState :=
    if loc.columnBuilders.isEmpty then ⟨op.columnTypes.map makeColumnBuilder, 0⟩ else loc
  (copyColumns start.columnBuilders.length start.columnBuilders batch.columns
    batch.selectionVector).bind fun builders =>
      let loc' : OrderByThreadState := ⟨builders, start.accumNumRows + batch.numRows⟩
      match op.totalLimit with
      | none => some loc'
      | some total =>
          if total * 10 % 2 ^ 64 < loc'.accumNumRows then op.trimLocalBatch P A loc' else some loc'

/-- `Sink(batch, thread_id)`. -/
def sink (op : OrderBySinkSourceOperator) (batch : RecordBatch) (threadId : ℕ) :
    Option OrderBySinkSourceOperator :=
  (op.threadStates[threadId]?).bind fun loc =>
    (op.sinkLocal P A batch loc).map fun loc' =>
      { op with threadStates := op.threadStates.set threadId loc' }

/-- One round of the merge over the threads: the global builders and `num_rows`. -/
def mergeThread (acc : List ColumnBuilder × ℕ) (loc : OrderByThreadState) :
    Option (List ColumnBuilder × ℕ) :=
  if loc.accumNumRows = 0 then some acc
  else (copyColumns acc.1.length acc.1 (loc.columnBuilders.map ColumnBuilder.finish) none).map
    fun builders => (builders, acc.2 + loc.accumNumRows)

/-- The sorted row indices, cut at the bound. -/
def sortIndices (op : OrderBySinkSourceOperator) (info : List (Column × Bool)) (numRows : ℕ) :
    List ℕ :=
  let indices := List.range numRows
  let cmp := compareRows P info
  match op.totalLimit with
  | none => A.sort cmp indices
  | some total =>
      if total < numRows then (A.partialSort cmp (toUInt32 total) indices).take (toUInt32 total)
      else A.sort cmp indices

/-- The row indices after the offset. -/
def skipOffset (op : OrderBySinkSourceOperator) (indices : List ℕ) : List ℕ :=
  match op.offset with
  | none => indices
  | some off => if 0 < off then (if indices.length ≤ off then [] else indices.drop off) else indices

/-- `Finalize`. Without any row the result has no columns. -/
def finalize (op : OrderBySinkSourceOperator) : Option OrderBySinkSourceOperator :=
  (op.threadStates.foldlM mergeThread (op.columnTypes.map makeColumnBuilder, 0)).bind fun acc =>
    if acc.2 = 0 then some { op with resultBatch := some ⟨0, none, []⟩ }
    else
      let columns := acc.1.map ColumnBuilder.finish
      (colsInfo columns acc.2 op.sortColumns).bind fun info =>
        let indices := op.skipOffset (op.sortIndices P A info acc.2)
        (op.rebuild columns indices).map fun builders =>
          { op with
            resultBatch := some ⟨indices.length, none, builders.map ColumnBuilder.finish⟩ }

/-- `GetData`: the result once, then nothing. -/
def getData (op : OrderBySinkSourceOperator) : Option RecordBatch × OrderBySinkSourceOperator :=
  if op.emitted then (none, op)
  else (op.resultBatch, { op with resultBatch := none, emitted := true })

/-- A sequence of `Sink` calls. -/
def sinkAll (op : OrderBySinkSourceOperator) (calls : List (RecordBatch × ℕ)) :
    Option OrderBySinkSourceOperator :=
  calls.foldlM (fun op call => op.sink P A call.1 call.2) op

end OrderBySinkSourceOperator

end ColumnarEngine
