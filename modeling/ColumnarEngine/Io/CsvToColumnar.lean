import ColumnarEngine.Column.FromString
import ColumnarEngine.Column.Schema
import ColumnarEngine.Io.ColumnarWriter
import ColumnarEngine.Io.CsvReader

/-!
# From CSV to columns

`io/CsvToColumnar.cpp`: `WriteToColumnar` reads rows into a cache until it has a MiB of them or the
chunk has its 8192 rows, parses the cache into the column builders, and writes a batch whenever the
chunk is complete or the text has ended. `Convert` takes the columns from the header of the text,
`ConvertWithSchema` from a schema file. The texts of the files are given, so none fails to open.

Both loops are bodies with a bounded number of turns, more than they take; what they return after
that many turns is never seen (`writeRows_eq`).
-/

namespace ColumnarEngine

open Found

namespace Fault

/-- A value that must be there: its absence is undefined behaviour. -/
def ofOption {α : Type} : Option α → Except Fault α
  | none => .error .undefined
  | some a => .ok a

/-- The outcome of a call whose absence is undefined behaviour and whose error is an exception. -/
def ofCall {α : Type} (call : Option (Except Bytes α)) : Except Fault α :=
  (ofOption call).bind (Except.mapError exception)

end Fault

/-! ## `AddBatch` -/

/-- `AddBatch(batch, j)`, where `cell i` is `batch.GetString2D(i, j)` and `height` is
`batch.Height()`. -/
def ColumnBuilder.addBatch (P : Platform) (cell : ℕ → Option Bytes) (height : ℕ)
    (b : ColumnBuilder) : Except Fault ColumnBuilder :=
  (List.range height).foldlM
    (fun b i => do
      let value ← Fault.ofOption (cell i)
      let v ← b.type.fromString P value
      return b.addValue v) b

/-- The loop of `WriteToColumnar` that calls `builders[j]->AddBatch(column_batch, j)`. -/
def addColumns (P : Platform) (cell : ℕ → ℕ → Option Bytes) (width height : ℕ)
    (builders : List ColumnBuilder) : Except Fault (List ColumnBuilder) :=
  (List.range width).foldlM
    (fun builders j => do
      let b ← Fault.ofOption builders[j]?
      let b ← b.addBatch P (fun i => cell i j) height
      return builders.set j b) builders

/-! ## The cache -/

/-- `kRowsPerChunk`. -/
def kRowsPerChunk : ℕ := 8192

/-- `kBytePerCache`. -/
def kBytePerCache : ℕ := 2 ^ 20

/-- The reader, `column_batch` and `cache_rows`. -/
structure Cache where
  reader : CsvReader
  columnBatch : VectorOfStrings2D
  cacheRows : ℕ

/-- One turn of the loop that fills the cache; it is left with `end_flag`. -/
def fillStep (accumulatedRows : ℕ) (cache : Cache) :
    Option (Turn Cache (Except Bytes (Bool × Cache))) :=
  if cache.columnBatch.approxByteSize < kBytePerCache ∧
      accumulatedRows + cache.cacheRows < kRowsPerChunk then
    (cache.reader.readRow cache.columnBatch).map fun
      | (.error text, _, _) => .leave (.error text)
      | (.ok true, reader, batch) => .again ⟨reader, batch.startNewLine, cache.cacheRows + 1⟩
      | (.ok false, reader, batch) => .leave (.ok (false, ⟨reader, batch, cache.cacheRows⟩))
  else some (.leave (.ok (true, cache)))

/-- The loop that fills the cache: `end_flag` and the cache. -/
def fillCache (accumulatedRows : ℕ) (reader : CsvReader) : Except Fault (Bool × Cache) :=
  Fault.ofCall ((turns (fillStep accumulatedRows) (kRowsPerChunk + 1) ⟨reader, .empty, 0⟩).bind
    Turn.result)

/-! ## `WriteToColumnar` -/

/-- The variables of `WriteToColumnar` but the reader, and the arguments of the calls of
`WriteBatch` so far. -/
structure Output where
  writer : ColumnarWriter
  builders : List ColumnBuilder
  accumulatedRows : ℕ
  batches : List (List Column)

namespace Output

/-- A cache of so many rows is parsed into the builders. -/
def load (P : Platform) (cell : ℕ → ℕ → Option Bytes) (width height cacheRows : ℕ)
    (out : Output) : Except Fault Output :=
  (addColumns P cell width height out.builders).map fun builders =>
    { out with
      builders := builders
      accumulatedRows := out.accumulatedRows + cacheRows }

/-- The builders are finished and the chunk is written, unless its first column is empty. -/
def flush (out : Output) : Except Fault Output :=
  let columns := out.builders.map ColumnBuilder.finish
  let out :=
    { out with
      builders := out.builders.map fun b => makeColumnBuilder b.type
      accumulatedRows := 0 }
  if 0 < ColumnarWriter.batchRows columns then
    (out.writer.writeBatch columns).map fun writer =>
      { out with
        writer := writer
        batches := out.batches ++ [columns] }
  else .ok out

end Output

/-- One turn of the loop of `WriteToColumnar`. -/
def chunkStep (P : Platform) (reader : CsvReader) (out : Output) :
    Except Fault (Turn (CsvReader × Output) Output) := do
  let (endFlag, cache) ← fillCache out.accumulatedRows reader
  if cache.cacheRows = 0 then return .leave out
  let batch := cache.columnBatch
  let out ← out.load P batch.getString2D batch.width batch.height cache.cacheRows
  let out ← if kRowsPerChunk ≤ out.accumulatedRows ∨ ¬ endFlag then out.flush else pure out
  return if endFlag then .again (cache.reader, out) else .leave out

/-- The loop of `WriteToColumnar`, with at most so many turns. -/
def chunks (P : Platform) : ℕ → CsvReader → Output → Except Fault Output
  | 0, _, _ => .error .undefined
  | n + 1, reader, out => do
      match ← chunkStep P reader out with
      | .again (reader, out) => chunks P n reader out
      | .leave out => return out

/-- `WriteToColumnar` before the call of `Finalize`. Every turn of its loop but the last reads a
row. -/
def writeRows (P : Platform) (columnNames : List Bytes) (columnTypes : List ColumnType)
    (reader : CsvReader) (builders : List ColumnBuilder) : Except Fault Output := do
  let writer ← ColumnarWriter.new.writeHeader columnNames columnTypes
  chunks P (reader.tokenizer.unread.length + 2) reader ⟨writer, builders, 0, []⟩

/-- `WriteToColumnar`: the bytes of the file. -/
def writeToColumnar (P : Platform) (columnNames : List Bytes) (columnTypes : List ColumnType)
    (reader : CsvReader) (builders : List ColumnBuilder) : Except Fault Bytes := do
  let out ← writeRows P columnNames columnTypes reader builders
  out.writer.finalize

/-! ## `CsvToColumnar` -/

/-- `Convert`: the bytes of the file. -/
def convert (P : Platform) (csv : Bytes) : Except Fault Bytes := do
  let reader := CsvReader.ofContent (Nat.two_pow_pos 27) csv comma
  let (header, reader) ← Fault.ofOption reader.readHeader
  let columns ← header.mapError Fault.exception
  let columnTypes := columns.map Prod.snd
  writeToColumnar P (columns.map Prod.fst) columnTypes reader (columnTypes.map makeColumnBuilder)

/-- `ConvertWithSchema`: the bytes of the file. -/
def convertWithSchema (P : Platform) (csv schemaText : Bytes) : Except Fault Bytes := do
  let reader := CsvReader.ofContent (Nat.two_pow_pos 27) csv comma
  let schema ← (Schema.deserializeSchema schemaText).mapError Fault.exception
  writeToColumnar P schema.names schema.types reader (schema.types.map makeColumnBuilder)

end ColumnarEngine
