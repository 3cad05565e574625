import ColumnarEngine.Column.Metadata
import ColumnarEngine.Exec.Pipeline

/-!
# The scan and the result sink

`ScanOperator` emits one batch for each chunk of the table, or, if no column is needed, one batch
that has only a row count. The columns of a chunk come from the `ColumnarReader`, which is a
parameter here. `ResultSinkOperator` keeps the batches it is given.
-/

namespace ColumnarEngine

open Found

/-- `ScanOperator`. -/
structure ScanOperator where
  metadata : MetadataTable
  columnIndices : List ℕ
  totalChunks : ℕ
  currentChunk : ℕ
  finishedEmptyScan : Bool
  deriving DecidableEq, Repr

namespace ScanOperator

/-- The text of a failed lookup in the metadata. -/
def notFound (name : Bytes) : Bytes := ascii "Column " ++ name ++ ascii " not found in metadata"

/-- The index of the first column of the name. -/
def findColumn (fullColumns : List ColumnMetadata) (name : Bytes) : Except Bytes ℕ :=
  match fullColumns.findIdx? fun c => c.name = name with
  | some i => .ok i
  | none => .error (notFound name)

/-- The index found is the first one of the name. -/
theorem findColumn_eq_ok {columns : List ColumnMetadata} {name : Bytes} {i : ℕ} :
    findColumn columns name = .ok i ↔
      i < (columns.map ColumnMetadata.name).length ∧
        (columns.map ColumnMetadata.name).idxOf name = i := by
  rw [← findIdx?_key_eq_some, findColumn]
  cases columns.findIdx? fun c => decide (c.name = name) <;> simp

/-- The constructor. -/
def make (columnNames : List Bytes) (metadata : MetadataTable) : Except Bytes ScanOperator := do
  let columnIndices ← columnNames.mapM (findColumn metadata.columnMeta)
  return {
    metadata := metadata
    columnIndices := columnIndices
    totalChunks := (metadata.columnMeta.head?.map fun c => c.offsets.length).getD 0
    currentChunk := 0
    finishedEmptyScan := false }

/-- The row count of a chunk: the size of the first column, or of the next one while it is zero. -/
def chunkRows (columns : List Column) : ℕ :=
  columns.foldl (fun numRows c => if numRows = 0 then c.size else numRows) 0

variable (reader : ℕ → ℕ → Option Column)

/-- The batch of a chunk. -/
def chunkBatch (op : ScanOperator) (chunk : ℕ) : Option RecordBatch :=
  (op.columnIndices.mapM fun colIdx => reader colIdx chunk).map fun columns =>
    { numRows := chunkRows columns, selectionVector := none, columns := columns }

/-- The batch of a scan without columns. -/
def emptyScanBatch (op : ScanOperator) : RecordBatch :=
  { numRows := op.metadata.numRows, selectionVector := none, columns := [] }

/-- `GetData`. -/
def getData (op : ScanOperator) : Option (Option RecordBatch × ScanOperator) :=
  if op.columnIndices.isEmpty then
    if op.finishedEmptyScan then some (none, op)
    else some (some op.emptyScanBatch, { op with finishedEmptyScan := true })
  else
    let next := { op with currentChunk := op.currentChunk + 1 }
    if op.totalChunks ≤ op.currentChunk then some (none, next)
    else (op.chunkBatch reader op.currentChunk).map fun batch => (some batch, next)

/-- The batches `GetData` has still to return. -/
def pending (op : ScanOperator) : List RecordBatch :=
  if op.columnIndices.isEmpty then
    if op.finishedEmptyScan then [] else [op.emptyScanBatch]
  else
    (List.range' op.currentChunk (op.totalChunks - op.currentChunk)).filterMap
      (op.chunkBatch reader)

/-- `GetData` returns the first pending batch. -/
theorem pending_eq {op op' : ScanOperator} {r : Option RecordBatch}
    (h : op.getData reader = some (r, op')) :
    op.pending reader = r.toList ++ op'.pending reader := by
  unfold getData at h
  unfold pending
  dsimp only at h
  split_ifs at h with hempty hfinished hlast
  · obtain ⟨rfl, rfl⟩ := Prod.mk.inj (Option.some.inj h)
    simp [hempty, hfinished]
  · obtain ⟨rfl, rfl⟩ := Prod.mk.inj (Option.some.inj h)
    simp [hempty, hfinished]
  · obtain ⟨rfl, rfl⟩ := Prod.mk.inj (Option.some.inj h)
    simp [hempty, Nat.sub_eq_zero_of_le hlast, Nat.sub_eq_zero_of_le (Nat.le_succ_of_le hlast)]
  · obtain ⟨batch, hbatch, h⟩ := Option.map_eq_some_iff.mp h
    obtain ⟨rfl, rfl⟩ := Prod.mk.inj h
    have hrange : op.totalChunks - op.currentChunk =
        op.totalChunks - (op.currentChunk + 1) + 1 := by omega
    rw [if_neg hempty, if_neg hempty, hrange, List.range'_succ, List.filterMap_cons, hbatch]
    rfl

/-- `GetData` returns no batch only when none is pending. -/
theorem exhausted {op op' : ScanOperator} (h : op.getData reader = some (none, op')) :
    op.pending reader = [] := by
  unfold getData at h
  unfold pending
  dsimp only at h
  split_ifs at h with hempty hfinished hlast
  · simp [hempty, hfinished]
  · simp at h
  · simp [hempty, Nat.sub_eq_zero_of_le hlast]
  · obtain ⟨batch, -, h⟩ := Option.map_eq_some_iff.mp h
    simp at h

/-- The scan as a source. -/
def source : SourceOperator ScanOperator where
  getData := getData reader
  pending := pending reader
  pending_eq := pending_eq reader
  exhausted := exhausted reader

end ScanOperator

/-- `ResultSinkOperator`: the state is `batches_`. -/
def resultSink : SinkOperator (List RecordBatch) where
  sink batches batch _ := some (batches ++ [batch])
  finalize batches := some batches

end ColumnarEngine
