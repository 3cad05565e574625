import ColumnarEngine.Column.Column
import ColumnarEngine.Column.Metadata

/-!
# The columnar writer

`ColumnarWriter` keeps the bytes written so far, the metadata of the columns and two running
counters of 64 bits. `writeBatch` appends the chunks of a batch, column after column, and records
where each one is; `finalize` appends the metadata and the footer. Every write to the stream
succeeds.

Where the types of a batch are those of the header and the lengths fit their 32-bit prefixes, a
batch is written as `batchBytes` and recorded by `record` (`writeBatch_eq_ok`).
-/

namespace ColumnarEngine

open Found

/-- A `uint64_t` counter after an addition. -/
def u64 (n : ℕ) : ℕ := n % 256 ^ 8

/-- The type whose vectors have the same C++ type: `DateColumn` stores `int32_t` and
`TimestampColumn` stores `int64_t`. -/
def ColumnType.container : ColumnType → ColumnType
  | .date => .int32
  | .timestamp => .int64
  | t => t

/-- `"TUFF"`. -/
def magic : Bytes := ascii "TUFF"

/-- `ColumnarWriter`; `file` is what `file_` has received. -/
structure ColumnarWriter where
  file : Bytes
  metadata : List ColumnMetadata
  headerWritten : Bool
  currentOffset : ℕ
  numRows : ℕ
  deriving DecidableEq, Repr

namespace ColumnarWriter

/-- The constructor. -/
def new : ColumnarWriter :=
  { file := [], metadata := [], headerWritten := false, currentOffset := 0, numRows := 0 }

/-- `WriteHeader`. A missing type is read past the end of the vector. -/
def writeHeader (w : ColumnarWriter) (columnNames : List Bytes) (columnTypes : List ColumnType) :
    Except Fault ColumnarWriter :=
  if w.headerWritten then .error (.exception (ascii "Header already written"))
  else if columnTypes.length < columnNames.length then .error .undefined
  else .ok {
    file := w.file ++ magic
    metadata := w.metadata ++
      List.zipWith (fun name type => ⟨name, type, [], []⟩) columnNames columnTypes
    headerWritten := true
    currentOffset := 4
    numRows := w.numRows }

/-! ## Batches -/

/-- The bytes of an element in the file. The length of a string is cut to 32 bits, and if that
leaves nothing the string is not written. -/
def valueBytes (type : ColumnType) : Value → Bytes
  | .int n => encodeInt type.elemSize n
  | .str s => toLE 4 s.length ++ if 0 < s.length % 256 ^ 4 then s else []

/-- What a string adds to `total_size`. -/
def stringSize : Value → ℕ
  | .int _ => 0
  | .str s => 4 + s.length % 256 ^ 4

/-- The body of the loop of `WriteBatch` up to the metadata: the bytes written for a column and the
size recorded for them. The elements are read through a cast to the container of the header's
type. -/
def columnBytes (type : ColumnType) (c : Column) : Except Fault (Bytes × ℕ) :=
  if type = .string then
    if c.type = .string then
      .ok (c.data.flatMap (valueBytes .string), (c.data.map stringSize).sum)
    else .error .undefined
  else
    let size := c.size * type.elemSize
    if size = 0 then .ok ([], 0)
    else if c.type.container = type.container then .ok (c.data.flatMap (valueBytes type), size)
    else .error .undefined

/-- The loop of `WriteBatch` over the columns and their metadata. -/
def writeColumns (file : Bytes) (currentOffset : ℕ) :
    List ColumnMetadata → List Column → Except Fault (Bytes × ℕ × List ColumnMetadata)
  | m :: ms, c :: cs => do
      let (bytes, size) ← columnBytes m.type c
      let m := { m with offsets := m.offsets ++ [currentOffset], sizes := m.sizes ++ [size] }
      let (file, currentOffset, ms) ←
        writeColumns (file ++ bytes) (u64 (currentOffset + size)) ms cs
      return (file, currentOffset, m :: ms)
  | ms, _ => return (file, currentOffset, ms)

/-- `columns[0]->Size()`, if there is a column. -/
def batchRows (columns : List Column) : ℕ := (columns.head?.map Column.size).getD 0

/-- `WriteBatch`. -/
def writeBatch (w : ColumnarWriter) (columns : List Column) : Except Fault ColumnarWriter :=
  if ¬ w.headerWritten then
    .error (.exception (ascii "Header must be written before writing batches"))
  else if columns.length ≠ w.metadata.length then
    .error (.exception (ascii "Number of columns does not match metadata"))
  else do
    let (file, currentOffset, metadata) ← writeColumns w.file w.currentOffset w.metadata columns
    return {
      file := file
      metadata := metadata
      headerWritten := w.headerWritten
      currentOffset := currentOffset
      numRows := u64 (w.numRows + batchRows columns) }

/-! ## The end of the file -/

/-- What `WriteMetadata` writes for a chunk. -/
def extentBytes (e : ℕ × ℕ) : Bytes := toLE 8 e.1 ++ toLE 8 e.2

/-- What `WriteMetadata` writes for a column; the name and the list of chunks are cut to their
32-bit lengths. -/
def columnMetadataBytes (m : ColumnMetadata) : Bytes :=
  toLE 4 m.name.length ++ m.name.take (m.name.length % 256 ^ 4) ++ toLE 1 m.type.code ++
    toLE 4 m.offsets.length ++
    ((m.offsets.zip m.sizes).take (m.offsets.length % 256 ^ 4)).flatMap extentBytes

/-- What `WriteMetadata` writes before the two counters. -/
def metadataBytes (metadata : List ColumnMetadata) : Bytes :=
  toLE 4 metadata.length ++ metadata.flatMap columnMetadataBytes

/-- `Finalize`, with `WriteMetadata`: the bytes of the complete file. -/
def finalize (w : ColumnarWriter) : Except Fault Bytes :=
  if ¬ w.headerWritten then
    .error (.exception (ascii "Header must be written before finalizing"))
  else
    .ok (w.file ++ metadataBytes w.metadata ++ toLE 8 w.numRows ++ toLE 8 w.currentOffset ++ magic)

/-- `WriteHeader`, the `WriteBatch` calls and `Finalize` of a new writer. -/
def writeFile (columnNames : List Bytes) (columnTypes : List ColumnType)
    (batches : List (List Column)) : Except Fault Bytes := do
  let w ← new.writeHeader columnNames columnTypes
  let w ← batches.foldlM writeBatch w
  w.finalize

/-! ## What is written when every length fits -/

/-- The strings of the column fit their length prefix. -/
def ShortStrings (c : Column) : Prop := ∀ v ∈ c.data, v.length < 256 ^ 4

/-- The bytes of a chunk. -/
def chunkBytes (c : Column) : Bytes := c.data.flatMap (valueBytes c.type)

/-- The bytes of a batch. -/
def batchBytes (columns : List Column) : Bytes := columns.flatMap chunkBytes

/-- The column has the header's type and fits. -/
def Fits (type : ColumnType) (c : Column) : Prop := c.type = type ∧ ShortStrings c

/-- The header of a new writer. -/
theorem writeHeader_eq_ok {columnNames : List Bytes} {columnTypes : List ColumnType}
    (h : columnNames.length ≤ columnTypes.length) :
    new.writeHeader columnNames columnTypes = .ok {
      file := magic
      metadata := List.zipWith (fun name type => ⟨name, type, [], []⟩) columnNames columnTypes
      headerWritten := true
      currentOffset := 4
      numRows := 0 } := by
  simp [writeHeader, new, not_lt.mpr h]

/-- What a string adds to the size is what it adds to the file. -/
theorem sum_stringSize {data : List Value} (htyped : ∀ v ∈ data, v.HasType .string)
    (hshort : ∀ v ∈ data, v.length < 256 ^ 4) :
    (data.map stringSize).sum = (data.flatMap (valueBytes .string)).length := by
  induction data with
  | nil => rfl
  | cons v data ih =>
      have hrest := ih (fun u hu => htyped u (List.mem_cons_of_mem v hu))
        (fun u hu => hshort u (List.mem_cons_of_mem v hu))
      rw [List.map_cons, List.sum_cons, hrest, List.flatMap_cons, List.length_append]
      congr 1
      cases v with
      | int n => exact absurd rfl (htyped _ List.mem_cons_self).1
      | str s =>
          have hs : s.length < 256 ^ 4 := hshort _ List.mem_cons_self
          simp only [stringSize, valueBytes, Nat.mod_eq_of_lt hs, List.length_append, length_toLE]
          split_ifs with hpos
          · rfl
          · simp only [List.length_nil]
            omega

/-- The bytes of the elements of a number column. -/
theorem length_flatMap_valueBytes {t : ColumnType} {data : List Value} (ht : t ≠ .string)
    (htyped : ∀ v ∈ data, v.HasType t) :
    (data.flatMap (valueBytes t)).length = data.length * t.elemSize := by
  induction data with
  | nil => simp
  | cons v data ih =>
      have hrest := ih fun u hu => htyped u (List.mem_cons_of_mem v hu)
      rw [List.flatMap_cons, List.length_append, hrest, List.length_cons, Nat.succ_mul,
        Nat.add_comm]
      congr 1
      cases v with
      | int n => simp [valueBytes]
      | str s => exact absurd (htyped _ List.mem_cons_self).1 ht

/-- A column that fits is written as its chunk, and the chunk's size is recorded. -/
theorem columnBytes_eq_ok {type : ColumnType} {c : Column} (h : Fits type c) :
    columnBytes type c = .ok (chunkBytes c, (chunkBytes c).length) := by
  obtain ⟨rfl, hshort⟩ := h
  unfold columnBytes chunkBytes
  by_cases ht : c.type = .string
  · have htyped : ∀ v ∈ c.data, v.HasType .string := fun v hv => ht ▸ c.typed v hv
    rw [if_pos ht, if_pos ht, ht, sum_stringSize htyped hshort]
  · have hlen := length_flatMap_valueBytes ht c.typed
    rw [if_neg ht, hlen]
    simp only [Column.size, if_true]
    split_ifs with hsize
    · rw [hsize, List.length_eq_zero_iff.mp (hlen.trans hsize)]
    · rfl

/-- The metadata after the chunks of a batch are written from an offset on. -/
def record (offset : ℕ) : List ColumnMetadata → List Column → List ColumnMetadata
  | m :: ms, c :: cs =>
      { m with offsets := m.offsets ++ [offset], sizes := m.sizes ++ [(chunkBytes c).length] } ::
        record (u64 (offset + (chunkBytes c).length)) ms cs
  | ms, _ => ms

theorem u64_u64_add (m n : ℕ) : u64 (u64 m + n) = u64 (m + n) := Nat.mod_add_mod m _ n

/-- The loop writes the chunks one after another and records them. -/
theorem writeColumns_eq_ok {file : Bytes} {offset : ℕ} {ms : List ColumnMetadata} {cs : List Column}
    (h : List.Forall₂ (fun m c => Fits m.type c) ms cs) (hoff : u64 offset = offset) :
    writeColumns file offset ms cs =
      .ok (file ++ batchBytes cs, u64 (offset + (batchBytes cs).length), record offset ms cs) := by
  induction h generalizing file offset with
  | nil => simp [writeColumns, batchBytes, record, hoff, pure, Except.pure]
  | @cons m c ms cs hfit hrest ih =>
      have hrec := @ih (file ++ chunkBytes c) (u64 (offset + (chunkBytes c).length)) (by simp [u64])
      simp only [writeColumns, columnBytes_eq_ok hfit, bind, Except.bind, hrec, pure, Except.pure]
      simp [batchBytes, record, u64_u64_add, Nat.add_assoc]

/-- A batch that fits is appended and recorded. -/
theorem writeBatch_eq_ok {w : ColumnarWriter} {columns : List Column} (hheader : w.headerWritten)
    (h : List.Forall₂ (fun m c => Fits m.type c) w.metadata columns)
    (hoff : u64 w.currentOffset = w.currentOffset) :
    w.writeBatch columns = .ok {
      file := w.file ++ batchBytes columns
      metadata := record w.currentOffset w.metadata columns
      headerWritten := w.headerWritten
      currentOffset := u64 (w.currentOffset + (batchBytes columns).length)
      numRows := u64 (w.numRows + batchRows columns) } := by
  have hlen : columns.length = w.metadata.length := h.length_eq.symm
  simp [writeBatch, hheader, hlen, writeColumns_eq_ok h hoff, bind, Except.bind, pure, Except.pure]

/-! ## What is written when the types are those of the header -/

/-- The header is written, with the types. -/
theorem exists_writeHeader {columnNames : List Bytes} {columnTypes : List ColumnType}
    (h : columnNames.length = columnTypes.length) :
    ∃ w, new.writeHeader columnNames columnTypes = .ok w ∧ w.headerWritten ∧
      w.metadata.map ColumnMetadata.type = columnTypes := by
  refine ⟨_, writeHeader_eq_ok h.le, rfl, ?_⟩
  dsimp only
  rw [List.map_zipWith]
  induction columnNames generalizing columnTypes with
  | nil => rw [List.length_eq_zero_iff.mp h.symm, List.zipWith_nil_left]
  | cons name columnNames ih =>
      obtain ⟨type, columnTypes, rfl⟩ := List.exists_cons_of_length_eq_add_one h.symm
      rw [List.zipWith_cons_cons, ih (Nat.succ.inj h)]

/-- A column of the header's type is written. -/
theorem exists_columnBytes {type : ColumnType} {c : Column} (h : c.type = type) :
    ∃ written, columnBytes type c = .ok written := by
  subst h
  rw [columnBytes]
  by_cases hstring : c.type = .string
  · rw [if_pos hstring, if_pos hstring]
    exact ⟨_, rfl⟩
  · rw [if_neg hstring]
    dsimp only
    rw [if_pos rfl]
    split_ifs
    · exact ⟨_, rfl⟩
    · exact ⟨_, rfl⟩

/-- Columns of the header's types are written, and the header stays. -/
theorem exists_writeColumns {ms : List ColumnMetadata} {cs : List Column}
    (h : List.Forall₂ (fun m c => c.type = m.type) ms cs) (file : Bytes) (offset : ℕ) :
    ∃ file' offset' ms', writeColumns file offset ms cs = .ok (file', offset', ms') ∧
      ms'.map ColumnMetadata.type = ms.map ColumnMetadata.type := by
  induction h generalizing file offset with
  | nil => exact ⟨file, offset, [], rfl, rfl⟩
  | @cons m c ms cs htype hrest ih =>
      obtain ⟨⟨bytes, size⟩, hbytes⟩ := exists_columnBytes htype
      obtain ⟨file', offset', ms', hwritten, htypes⟩ := ih (file ++ bytes) (u64 (offset + size))
      refine ⟨file', offset', { m with
        offsets := m.offsets ++ [offset]
        sizes := m.sizes ++ [size] } :: ms', ?_, ?_⟩
      · rw [writeColumns, hbytes]
        simp only [bind, Except.bind, hwritten]
        rfl
      · rw [List.map_cons, List.map_cons, htypes]

/-- A batch of the header's types is written. -/
theorem exists_writeBatch {w : ColumnarWriter} {columns : List Column} (hheader : w.headerWritten)
    (h : columns.map Column.type = w.metadata.map ColumnMetadata.type) :
    ∃ w', w.writeBatch columns = .ok w' ∧ w'.headerWritten ∧
      w'.metadata.map ColumnMetadata.type = w.metadata.map ColumnMetadata.type := by
  have hlength : columns.length = w.metadata.length := by simpa using congrArg List.length h
  have htypes : List.Forall₂ (fun m c => c.type = m.type) w.metadata columns := by
    rw [← List.forall₂_map_right_iff (R := fun m t => t = ColumnMetadata.type m), h,
      List.forall₂_map_right_iff]
    exact List.forall₂_same.mpr fun _ _ => rfl
  obtain ⟨file, offset, metadata, hwritten, hmetadata⟩ :=
    exists_writeColumns htypes w.file w.currentOffset
  refine ⟨{ w with
    file := file
    metadata := metadata
    currentOffset := offset
    numRows := u64 (w.numRows + batchRows columns) }, ?_, hheader, hmetadata⟩
  rw [writeBatch, if_neg (not_not.mpr hheader), if_neg (not_not.mpr hlength), hwritten]
  rfl

end ColumnarWriter

end ColumnarEngine
