import ColumnarEngine.Exec.Scan
import ColumnarEngine.Exec.SourceRun
import ColumnarEngine.Io.RoundTrip

/-!
# Scanning a written file

A scan of a file that the writer produced, called by any number of callers: the batches returned are
one for each chunk, with the requested columns, and the single batch of a scan without columns has
the rows of all of them, exactly if one transfer reads every chunk requested (`scansRight_iff`).
Calls are counted without a bound: `current_chunk_` does not wrap.
-/

namespace ColumnarEngine

open Found ColumnarWriter

/-- The columns of `MetadataTable` as the scan sees them. -/
def RawMetadata.column (m : RawMetadata) : ColumnMetadata :=
  ⟨m.name, (ColumnType.ofCode m.typeCode).getD default, m.offsets, m.sizes⟩

/-- The `MetadataTable` that `ParseMetadata` filled. -/
def RawTable.metadataTable (table : RawTable) : MetadataTable :=
  ⟨table.columnMeta.map RawMetadata.column, table.numRows⟩

/-- `GetColumnData` of the scan's reader. -/
def fileReader (file : File) (table : RawTable) (columnIndex chunkIndex : ℕ) : Option Column :=
  (getColumnData file table columnIndex chunkIndex).toOption

/-- The requested columns of a batch. -/
def scanned (names columnNames : List Bytes) (columns : List Column) : RecordBatch :=
  ⟨batchRows columns, none, columnNames.filterMap fun name => columns[names.idxOf name]?⟩

/-- What a scan has to emit: the batches that were written, or the number of their rows. -/
def emitted (names columnNames : List Bytes) (batches : List (List Column)) : List RecordBatch :=
  if columnNames = [] then [⟨totalRows batches, none, []⟩]
  else batches.map (scanned names columnNames)

/-- The scan of the file, whose names are those that it holds, is defined at every call and emits
its batches once: those returned are never more than there are, and all of them when every call has
returned and one returned null. -/
def ScansRight (names : List Bytes) (types : List ColumnType) (batches : List (List Column))
    (columnNames : List Bytes) : Prop :=
  ∀ file : File, writeFile names types batches = .ok file.bytes →
    ∃ table op, parseMetadata file = .ok table ∧
      ScanOperator.make columnNames table.metadataTable = .ok op ∧
      ∀ numCallers as s, run (SourceRun.step (ScanOperator.source (fileReader file table)))
          (SourceRun.start op numCallers) as = some s →
        (∀ w, s.callers[w]? = some .idle →
          ∃ s',
            SourceRun.step (ScanOperator.source (fileReader file table)) s (.call w) = some s') ∧
        s.batches.Subperm (emitted (names.map storedName) columnNames batches) ∧
        ((∀ c ∈ s.callers, c = .idle) → none ∈ s.returned →
          s.batches.Perm (emitted (names.map storedName) columnNames batches) ∧
            (s.batches.map RecordBatch.numRows).sum = totalRows batches)

/-! ## The operator -/

namespace ScanOperator

/-- The constructor with names that exist. -/
theorem make_eq_ok {columnNames : List Bytes} {metadata : MetadataTable}
    (h : ∀ name ∈ columnNames, name ∈ metadata.columnMeta.map ColumnMetadata.name) :
    make columnNames metadata = .ok {
      metadata := metadata
      columnIndices :=
        columnNames.map fun name => (metadata.columnMeta.map ColumnMetadata.name).idxOf name
      totalChunks := (metadata.columnMeta.head?.map fun c => c.offsets.length).getD 0
      currentChunk := 0
      finishedEmptyScan := false } := by
  have hloop : columnNames.mapM (findColumn metadata.columnMeta) = .ok
      (columnNames.map fun name => (metadata.columnMeta.map ColumnMetadata.name).idxOf name) := by
    induction columnNames with
    | nil => rfl
    | cons name columnNames ih =>
        have hfind := findColumn_eq_ok.mpr
          ⟨List.idxOf_lt_length_iff.mpr (h name List.mem_cons_self), rfl⟩
        rw [List.mapM_cons, hfind, ih fun n hn => h n (List.mem_cons_of_mem name hn)]
        rfl
  rw [make, hloop]
  rfl

/-- The row count of a chunk whose columns are equally long. -/
theorem chunkRows_eq {columns : List Column} {n : ℕ} (hne : columns ≠ [])
    (h : ∀ c ∈ columns, c.size = n) : chunkRows columns = n := by
  obtain ⟨c, columns, rfl⟩ := List.exists_cons_of_ne_nil hne
  have hc := h c List.mem_cons_self
  have hrest : ∀ c' ∈ columns, c'.size = n := fun c' hc' => h c' (List.mem_cons_of_mem c hc')
  rw [chunkRows, List.foldl_cons, if_pos rfl, hc]
  clear h hc hne
  induction columns with
  | nil => rfl
  | cons c' columns ih =>
      rw [List.foldl_cons, hrest c' List.mem_cons_self, ite_self]
      exact ih fun c'' hc'' => hrest c'' (List.mem_cons_of_mem c' hc'')

variable {reader : ℕ → ℕ → Option Column}

/-- Every chunk can be read. -/
def Readable (reader : ℕ → ℕ → Option Column) (op : ScanOperator) : Prop :=
  ∀ k < op.totalChunks, ∃ batch, op.chunkBatch reader k = some batch

/-- A scan whose chunks can be read returns. -/
theorem exists_getData {op : ScanOperator} (h : op.Readable reader) :
    ∃ r, op.getData reader = some r := by
  unfold getData
  dsimp only
  split_ifs with hempty hfinished hlast
  · exact ⟨_, rfl⟩
  · exact ⟨_, rfl⟩
  · exact ⟨_, rfl⟩
  · obtain ⟨batch, hbatch⟩ := h op.currentChunk (Nat.lt_of_not_le hlast)
    exact ⟨_, by rw [hbatch]; rfl⟩

/-- A call moves the cursor only. -/
theorem readable_getData {op op' : ScanOperator} {r : Option RecordBatch} (h : op.Readable reader)
    (hget : op.getData reader = some (r, op')) : op'.Readable reader := by
  unfold getData at hget
  dsimp only at hget
  split_ifs at hget with hempty hfinished hlast
  · obtain ⟨-, rfl⟩ := Prod.mk.inj (Option.some.inj hget)
    exact h
  · obtain ⟨-, rfl⟩ := Prod.mk.inj (Option.some.inj hget)
    exact h
  · obtain ⟨-, rfl⟩ := Prod.mk.inj (Option.some.inj hget)
    exact h
  · obtain ⟨batch, -, hget⟩ := Option.map_eq_some_iff.mp hget
    obtain ⟨-, rfl⟩ := Prod.mk.inj hget
    exact h

/-- In every run of a scan whose chunks can be read, every call is defined. -/
theorem run_call {op : ScanOperator} (h : op.Readable reader) {numCallers : ℕ}
    {as : List SourceAction} {s : SourceRun ScanOperator}
    (hrun : run (SourceRun.step (source reader)) (SourceRun.start op numCallers) as = some s)
    {w : ℕ}
    (hw : s.callers[w]? = some .idle) :
    ∃ s', SourceRun.step (source reader) s (.call w) = some s' := by
  have hreadable : s.source.Readable reader :=
    SourceRun.run_source hrun h fun _ _ _ hop hget => readable_getData hop hget
  obtain ⟨r, hr⟩ := exists_getData hreadable
  have hget : (source reader).getData s.source = some r := hr
  rw [SourceRun.step, hw]
  dsimp only
  rw [hget]
  exact ⟨_, rfl⟩

/-- A caller that calls and returns before each chunk comes to every chunk, if each of its calls is
defined. -/
theorem exists_run_to_chunk {op : ScanOperator} (hcolumns : op.columnIndices ≠ [])
    (hstart : op.currentChunk = 0)
    (hcall : ∀ as s, run (SourceRun.step (source reader)) (SourceRun.start op 1) as = some s →
      s.callers[0]? = some .idle → ∃ s', SourceRun.step (source reader) s (.call 0) = some s')
    {k : ℕ} (hk : k ≤ op.totalChunks) :
    ∃ as s, run (SourceRun.step (source reader)) (SourceRun.start op 1) as = some s ∧
      s.callers = [.idle] ∧ s.source = { op with currentChunk := k } := by
  induction k with
  | zero => exact ⟨[], SourceRun.start op 1, rfl, rfl, by rw [SourceRun.start, ← hstart]⟩
  | succ k ih =>
      obtain ⟨as, s, hrun, hidle, hsource⟩ := ih (Nat.le_of_succ_le hk)
      obtain ⟨s', hs'⟩ := hcall as s hrun (by rw [hidle]; rfl)
      obtain ⟨result, source', -, hget, rfl⟩ := SourceRun.step_call hs'
      have hempty : op.columnIndices.isEmpty = false := by simpa using hcolumns
      have hnext : source' = { op with currentChunk := k + 1 } := by
        have hlt : ¬ op.totalChunks ≤ k := Nat.not_le.mpr hk
        rw [hsource] at hget
        simp only [source, getData, hempty, Bool.false_eq_true, if_false, hlt] at hget
        obtain ⟨batch, -, hpair⟩ := Option.map_eq_some_iff.mp hget
        exact (Prod.mk.inj hpair).2.symm
      refine ⟨as ++ [.call 0, .ret 0], ⟨source', [.idle], s.returned ++ [result]⟩, ?_, rfl, hnext⟩
      rw [run_append]
      refine ⟨s, hrun, ?_⟩
      rw [run_cons]
      refine ⟨_, hs', ?_⟩
      rw [hidle]
      rfl

/-- A scan whose calls are all defined can read every chunk. -/
theorem readable_of_calls {op : ScanOperator} (hcolumns : op.columnIndices ≠ [])
    (hstart : op.currentChunk = 0)
    (hcall : ∀ as s, run (SourceRun.step (source reader)) (SourceRun.start op 1) as = some s →
      s.callers[0]? = some .idle → ∃ s', SourceRun.step (source reader) s (.call 0) = some s') :
    op.Readable reader := by
  intro k hk
  obtain ⟨as, s, hrun, hidle, hsource⟩ := exists_run_to_chunk hcolumns hstart hcall hk.le
  obtain ⟨s', hs'⟩ := hcall as s hrun (by rw [hidle]; rfl)
  obtain ⟨result, source', -, hget, -⟩ := SourceRun.step_call hs'
  have hempty : op.columnIndices.isEmpty = false := by simpa using hcolumns
  rw [hsource] at hget
  simp only [source, getData, hempty, Bool.false_eq_true, if_false, Nat.not_le.mpr hk] at hget
  obtain ⟨batch, hbatch, -⟩ := Option.map_eq_some_iff.mp hget
  exact ⟨batch, hbatch⟩

/-- A readable chunk has every column requested. -/
theorem exists_column {op : ScanOperator} {k : ℕ} {batch : RecordBatch}
    (h : op.chunkBatch reader k = some batch) {colIdx : ℕ} (hcolIdx : colIdx ∈ op.columnIndices) :
    ∃ c, reader colIdx k = some c := by
  obtain ⟨columns, hcolumns, -⟩ := Option.map_eq_some_iff.mp h
  exact exists_of_mapM hcolumns hcolIdx

end ScanOperator

/-! ## The file -/

section Written

variable {names columnNames : List Bytes} {types : List ColumnType} {batches : List (List Column)}

/-- The batch of a chunk has the requested columns. -/
theorem chunkBatch_eq {reader : ℕ → ℕ → Option Column} {op : ScanOperator} {columns : List Column}
    {k : ℕ} (hne : columnNames ≠ [])
    (hindices : op.columnIndices = columnNames.map fun name => names.idxOf name)
    (hread : ∀ name ∈ columnNames, ∃ c, reader (names.idxOf name) k = some c ∧
      columns[names.idxOf name]? = some c)
    (hequal : ∀ c ∈ columns, c.size = batchRows columns) :
    op.chunkBatch reader k = some (scanned names columnNames columns) := by
  have hcolumns : op.columnIndices.mapM (fun colIdx => reader colIdx k) =
      some (columnNames.filterMap fun name => columns[names.idxOf name]?) := by
    rw [hindices, List.mapM_map]
    exact mapM_eq_filterMap hread
  have hsome : columnNames.filterMap (fun name => columns[names.idxOf name]?) ≠ [] := by
    obtain ⟨name, hname⟩ := List.exists_mem_of_ne_nil _ hne
    obtain ⟨c, -, hc⟩ := hread name hname
    exact List.ne_nil_of_mem (List.mem_filterMap.mpr ⟨name, hname, hc⟩)
  rw [ScanOperator.chunkBatch, hcolumns, Option.map_some, ScanOperator.chunkRows_eq hsome]
  · rfl
  · intro c hc
    obtain ⟨name, -, hc⟩ := List.mem_filterMap.mp hc
    exact hequal c (List.mem_of_getElem? hc)

/-- The metadata table of a written file has the names that the file holds. -/
theorem Written.metadataTable_names {w : ColumnarWriter} (hw : Written names types w batches)
    (rows : ℕ) :
    (RawTable.metadataTable ⟨w.metadata.map ColumnMetadata.raw, rows⟩).columnMeta.map
      ColumnMetadata.name = names.map storedName := by
  rw [RawTable.metadataTable, List.map_map, List.map_map, ← hw.names, List.map_map]
  rfl

/-- A written file with a column has a chunk for each batch. -/
theorem Written.totalChunks_eq {w : ColumnarWriter} (hw : Written names types w batches)
    (hbatches : ∀ b ∈ batches, FitsHeader types b) (hsmall : w.file.length < 2 ^ 63)
    (hne : names ≠ []) (rows : ℕ) :
    ((RawTable.metadataTable ⟨w.metadata.map ColumnMetadata.raw, rows⟩).columnMeta.head?.map
      fun c => c.offsets.length).getD 0 = batches.length := by
  obtain ⟨m, ms, hm⟩ := List.exists_cons_of_ne_nil (l := w.metadata) fun hnil =>
    hne (by rw [← hw.names, hnil]; rfl)
  have hlen := hw.length_extents hbatches hsmall (hm ▸ List.mem_cons_self)
  rw [RawTable.metadataTable, hm]
  exact hlen.1

/-- The scan of a written file finds its columns. -/
theorem Written.make_scan {w : ColumnarWriter} (hw : Written names types w batches) {file : File}
    (hbatches : ∀ b ∈ batches, FitsHeader types b) (hpre : w.file <+: file.bytes)
    (hcolumns : ∀ name ∈ columnNames, name ∈ names.map storedName) :
    ∃ op, ScanOperator.make columnNames
        (RawTable.metadataTable ⟨w.metadata.map ColumnMetadata.raw, totalRows batches⟩) = .ok op ∧
      op.columnIndices = columnNames.map (fun name => (names.map storedName).idxOf name) ∧
      op.metadata.numRows = totalRows batches ∧ op.currentChunk = 0 ∧
      op.finishedEmptyScan = false ∧
      (columnNames ≠ [] → op.totalChunks = batches.length) := by
  have hsmall : w.file.length < 2 ^ 63 := hpre.length_le.trans_lt file.small
  have hnames := hw.metadataTable_names (totalRows batches)
  refine ⟨_, ScanOperator.make_eq_ok (by rwa [hnames]), ?_, rfl, rfl, rfl, ?_⟩
  · rw [hnames]
  · intro hne
    obtain ⟨name, hname⟩ := List.exists_mem_of_ne_nil _ hne
    have hsome : names ≠ [] := by
      rintro rfl
      cases hcolumns name hname
    exact hw.totalChunks_eq hbatches hsmall hsome (totalRows batches)

/-- A column found in the names is in every batch. -/
theorem Written.exists_chunk {w : ColumnarWriter} (hw : Written names types w batches)
    (hbatches : ∀ b ∈ batches, FitsHeader types b) {name : Bytes}
    (hname : name ∈ names.map storedName) {columns : List Column} (hb : columns ∈ batches) :
    ∃ c, columns[(names.map storedName).idxOf name]? = some c := by
  have hidx := List.idxOf_lt_length_iff.mpr hname
  have hlen := congrArg List.length ((hbatches columns hb).types.trans hw.types.symm)
  have hlen' := congrArg List.length hw.names
  rw [List.length_map, List.length_map] at hlen
  rw [List.length_map] at hidx hlen'
  exact ⟨_, List.getElem?_eq_getElem (by omega)⟩

/-- The scan of a written file finds its columns and has a readable batch for each chunk. -/
theorem Written.exists_scan {w : ColumnarWriter} (hw : Written names types w batches) {file : File}
    {table : RawTable} (htable : table = ⟨w.metadata.map ColumnMetadata.raw, totalRows batches⟩)
    (hbatches : ∀ b ∈ batches, FitsHeader types b) (hpre : w.file <+: file.bytes)
    (hcolumns : ∀ name ∈ columnNames, name ∈ names.map storedName)
    (hequal : ∀ b ∈ batches, ∀ c ∈ b, c.size = batchRows b)
    (hmax : ∀ b ∈ batches, ∀ name ∈ columnNames, ∀ c,
      b[(names.map storedName).idxOf name]? = some c → (chunkBytes c).length ≤ File.preadMax) :
    ∃ op, ScanOperator.make columnNames table.metadataTable = .ok op ∧
      op.Readable (fileReader file table) ∧
      op.pending (fileReader file table) =
        emitted (names.map storedName) columnNames batches := by
  obtain ⟨op, hop, hindices, hrows, hchunk, hfinished, htotal⟩ :=
    hw.make_scan hbatches hpre hcolumns
  refine ⟨op, htable ▸ hop, ?_⟩
  by_cases hne : columnNames = []
  · -- Without columns the row count of the metadata is the batch.
    subst hne
    have hnil : op.columnIndices = [] := hindices
    constructor
    · intro k _
      exact ⟨_, by rw [ScanOperator.chunkBatch, hnil]; rfl⟩
    · rw [ScanOperator.pending, hnil, hfinished, ScanOperator.emptyScanBatch, hrows]
      rfl
  have hread : ∀ k columns, batches[k]? = some columns →
      op.chunkBatch (fileReader file table) k =
        some (scanned (names.map storedName) columnNames columns) := by
    intro k columns hk
    have hb := List.mem_of_getElem? hk
    refine chunkBatch_eq hne hindices (fun name hname => ?_) (hequal columns hb)
    obtain ⟨c, hc⟩ := hw.exists_chunk hbatches (hcolumns name hname) hb
    refine ⟨c, ?_, hc⟩
    rw [fileReader, htable, hw.getColumnData hbatches hpre hk hc,
      if_pos (hmax columns hb name hname c hc)]
    rfl
  constructor
  · intro k hk
    rw [htotal hne] at hk
    exact ⟨_, hread k _ (List.getElem?_eq_getElem hk)⟩
  · have hindices' : op.columnIndices.isEmpty = false := by simp [hindices, hne]
    rw [ScanOperator.pending, hindices', if_neg Bool.false_ne_true, emitted, if_neg hne, hchunk,
      htotal hne, Nat.sub_zero, ← List.range_eq_range']
    exact filterMap_range hread

end Written

/-- The row counts of the emitted batches sum up to the rows of the file. -/
theorem sum_emitted (names columnNames : List Bytes) (batches : List (List Column)) :
    ((emitted names columnNames batches).map RecordBatch.numRows).sum = totalRows batches := by
  unfold emitted
  split_ifs with hne
  · simp
  · rw [List.map_map]
    rfl

section

variable {names columnNames : List Bytes} {types : List ColumnType} {batches : List (List Column)}

/-- A scan emits the table once, and the row count of a scan without columns agrees: for every
file written from batches with equal-length columns, all existing columns whose chunks are read in
one transfer, any number of callers and any interleaving. -/
theorem scansRight (hlen : names.length = types.length) (hwidth : types.length < 256 ^ 4)
    (hcount : batches.length < 256 ^ 4) (hbatches : ∀ b ∈ batches, FitsHeader types b)
    (hequal : ∀ b ∈ batches, ∀ c ∈ b, c.size = batchRows b)
    (hcolumns : ∀ name ∈ columnNames, name ∈ names.map storedName)
    (hmax : ∀ b ∈ batches, ∀ name ∈ columnNames, ∀ c,
      b[(names.map storedName).idxOf name]? = some c → (chunkBytes c).length ≤ File.preadMax) :
    ScansRight names types batches columnNames := by
  intro file hwrite
  obtain ⟨w, hw, hpre, hbytes⟩ := exists_written hlen hbatches hwrite
  obtain ⟨op, hop, hreadable, hpending⟩ := hw.exists_scan rfl hbatches hpre hcolumns hequal hmax
  refine ⟨_, op, hw.parseMetadata hbatches hwidth hcount hbytes, hop, ?_⟩
  intro numCallers as s hrun
  have hconserves := SourceRun.run_conserves hrun
  have hall : (ScanOperator.source (fileReader file _)).pending op =
    emitted (names.map storedName) columnNames batches := hpending
  rw [hall] at hconserves
  refine ⟨fun w hw => ScanOperator.run_call hreadable hrun hw, hconserves.subperm, ?_⟩
  intro hidle hnone
  have hperm := hconserves.perm hidle hnone
  exact ⟨hperm, by rw [(hperm.map _).sum_eq, sum_emitted]⟩

/-- A scan whose calls are all defined requests only chunks that one transfer reads. -/
theorem of_scansRight (hlen : names.length = types.length) (hwidth : types.length < 256 ^ 4)
    (hcount : batches.length < 256 ^ 4) (hbatches : ∀ b ∈ batches, FitsHeader types b)
    (hcolumns : ∀ name ∈ columnNames, name ∈ names.map storedName) {file : File}
    (hwrite : writeFile names types batches = .ok file.bytes)
    (h : ScansRight names types batches columnNames) :
    ∀ b ∈ batches, ∀ name ∈ columnNames, ∀ c, b[(names.map storedName).idxOf name]? = some c →
      (chunkBytes c).length ≤ File.preadMax := by
  intro b hb name hname c hc
  obtain ⟨w, hw, hpre, hbytes⟩ := exists_written hlen hbatches hwrite
  obtain ⟨op, hop, hindices, -, hchunk, -, htotal⟩ := hw.make_scan hbatches hpre hcolumns
  obtain ⟨table, op', htable, hop', hruns⟩ := h file hwrite
  obtain rfl :=
    Except.ok.inj ((hw.parseMetadata hbatches hwidth hcount hbytes).symm.trans htable)
  obtain rfl := Except.ok.inj (hop.symm.trans hop')
  have hne : columnNames ≠ [] := List.ne_nil_of_mem hname
  have hreadable : op.Readable (fileReader file _) :=
    ScanOperator.readable_of_calls (by simpa [hindices] using hne) hchunk
      fun as s hrun hidle => (hruns 1 as s hrun).1 0 hidle
  -- The chunk of the requested column was read, so one transfer reads it.
  obtain ⟨k, hk⟩ := List.mem_iff_getElem?.mp hb
  obtain ⟨batch, hbatch⟩ :=
    hreadable k (by rw [htotal hne]; exact (List.getElem?_eq_some_iff.mp hk).1)
  obtain ⟨column, hcolumn⟩ := ScanOperator.exists_column hbatch
    (hindices ▸ List.mem_map_of_mem hname)
  rw [fileReader, hw.getColumnData hbatches hpre hk hc] at hcolumn
  by_contra hlong
  rw [if_neg hlong] at hcolumn
  cases hcolumn

/-- **When a scan emits the table once**: for every file written from batches with equal-length
columns, all existing columns, any number of callers and any interleaving, exactly if one transfer
reads every chunk of the columns requested. -/
theorem scansRight_iff (hlen : names.length = types.length) (hwidth : types.length < 256 ^ 4)
    (hcount : batches.length < 256 ^ 4) (hbatches : ∀ b ∈ batches, FitsHeader types b)
    (hequal : ∀ b ∈ batches, ∀ c ∈ b, c.size = batchRows b)
    (hcolumns : ∀ name ∈ columnNames, name ∈ names.map storedName) {file : File}
    (hwrite : writeFile names types batches = .ok file.bytes) :
    ScansRight names types batches columnNames ↔
      ∀ b ∈ batches, ∀ name ∈ columnNames, ∀ c, b[(names.map storedName).idxOf name]? = some c →
        (chunkBytes c).length ≤ File.preadMax := by
  constructor
  · exact of_scansRight hlen hwidth hcount hbatches hcolumns hwrite
  · exact scansRight hlen hwidth hcount hbatches hequal hcolumns

end

/-- A table of two columns and two batches, its columns requested in the other order. -/
theorem scansRight_iff_two_batches :
    ScansRight [ascii "id", ascii "name"] [.int32, .string]
      [[.ofValues .int32 [.int 1, .int (-2)], .ofValues .string [.str (ascii "ab"), .str []]],
        [.ofValues .int32 [.int 3], .ofValues .string [.str (ascii "c")]]]
      [ascii "name", ascii "id"] := by
  have hmax : ∀ b ∈ [[Column.ofValues .int32 [.int 1, .int (-2)],
        .ofValues .string [.str (ascii "ab"), .str []]],
      [.ofValues .int32 [.int 3], .ofValues .string [.str (ascii "c")]]], ∀ c ∈ b,
      (chunkBytes c).length ≤ File.preadMax := by decide
  have hbatches := fitsHeader_two_batches
  obtain ⟨file, hfile⟩ := @exists_file [ascii "id", ascii "name"] _ _ rfl hbatches (by decide)
  apply (scansRight_iff rfl (by decide) (by decide) hbatches (by decide) (by decide) hfile).mpr
  intro b hb name _ c hc
  exact hmax b hb c (List.mem_of_getElem? hc)

/-- A batch of 8192 rows, each a string of `2 ^ 18` bytes, is written but not scanned. -/
theorem not_scansRight :
    ¬ ScansRight [ascii "s"] [.string] [[stringsOf (2 ^ 13) (2 ^ 18)]] [ascii "s"] := by
  intro h
  have hlength : 2 ^ 18 < 256 ^ 4 := by norm_num
  obtain ⟨file, hfile⟩ := exists_file_stringsOf (ascii "s") (2 ^ 13) hlength (by norm_num)
  have hmax := of_scansRight rfl (by decide) (by decide) (fitsHeader_stringsOf _ hlength)
    (by decide) hfile h _ List.mem_cons_self _ List.mem_cons_self _ rfl
  rw [(chunkBytes_stringsOf _ hlength).2, File.preadMax] at hmax
  norm_num at hmax

end ColumnarEngine
