import ColumnarEngine.Query.Collect
import ColumnarEngine.Query.Compiled

/-!
# `Collect` answers its plan

The two refinements together: a run of `Collect` returns rows that the compiled schedule yields, and
these are an answer of the plan.
-/

namespace ColumnarEngine

open Found ColumnarWriter

variable {P : Platform} {plan : PlanNode} {threads : ℕ} {ctx : BuildContext}
  {reader : ℕ → ℕ → Option Column} {table data : List Row}

/-- The conditions on the pipelines of a context, along its schedule. -/
theorem BuildContext.Supported.sound (h : ctx.Supported P reader table) {ps : List PipelineSpec}
    {p : PipelineSpec} (hps : ctx.schedule = ps ++ [p]) : SoundSchedule ctx.breakers ps p := by
  have hat : ∀ before q after, ctx.schedule = before ++ q :: after →
      q.Sound ctx.breakers before := by
    intro before q after heq
    have hq : ctx.schedule[before.length]? = some q := by
      rw [heq, List.getElem?_append_right le_rfl, Nat.sub_self, List.getElem?_cons_zero]
    have hcasts := h.casts before.length q hq
    rw [BuildContext.sourceFieldsAt, BuildContext.fieldsAt, heq, List.take_left] at hcasts
    exact ⟨h.limits q (List.mem_of_getElem? hq), hcasts⟩
  refine ⟨hat ps p [] hps, ?_⟩
  intro before q after heq
  apply hat before q (after ++ [p])
  rw [hps, heq, List.append_assoc, List.cons_append]

/-- The rows that a scan reads are typed. -/
theorem ScanOperator.Scans.typed {op : ScanOperator} (h : op.Scans reader table) :
    TypedRows (typesOf op.fields) table := by
  intro row hrow
  rw [← h.rows] at hrow
  obtain ⟨b, hb, hrow⟩ := List.mem_flatMap.mp hrow
  obtain ⟨hwf, htypes⟩ := h.wellFormed b hb
  rw [← htypes]
  exact hwf.rows_typed row hrow

/-- What the first pipeline of a context scans: the columns of the scan in the rows of the table. -/
def BuildContext.scanned (ctx : BuildContext) (data : List Row) : List Row :=
  match (ctx.schedule.getD 0 {}).source with
  | some (.scan op) => data.map (keyOf op.columnIndices)
  | _ => []

theorem BuildContext.scanned_eq {p : PipelineSpec} {op : ScanOperator}
    (hp : ctx.schedule[0]? = some p) (hop : p.source = some (.scan op)) :
    ctx.scanned data = data.map (keyOf op.columnIndices) := by
  rw [scanned, List.getD_eq_getElem?_getD, hp, Option.getD_some, hop]

/-- **What a compiled plan yields is an answer** of the plan over the rows of the table. -/
theorem BuildContext.Supported.answers (hsupported : ctx.Supported P reader (ctx.scanned data))
    (hcompile : compile P plan threads = .ok ctx) (hplan : plan.IsExact)
    (hbreakers : ∀ b ∈ ctx.breakers, b.IsExact) {ps : List PipelineSpec} {p : PipelineSpec}
    (hps : ctx.schedule = ps ++ [p]) {rows : List Row}
    (hyields : Yields P ctx.breakers (ctx.scanned data) ps p rows) :
    plan.Answers P data none ctx.schema (cut p.finalLimit rows) := by
  obtain ⟨ps', p', hps', hcompiles⟩ := PlanNode.compiles_of_compile hcompile
  obtain ⟨rfl, hp⟩ := List.append_inj' (hps.symm.trans hps') rfl
  obtain rfl := List.singleton_injective hp
  have hscan : ∀ op, scanOf ps p = some (.scan op) → op.Offers data (ctx.scanned data) := by
    intro op hop
    rw [scanOf, ← hps, List.head?_eq_getElem?] at hop
    obtain ⟨q, hq, hsource⟩ := Option.bind_eq_some_iff.mp hop
    exact ⟨BuildContext.scanned_eq hq hsource, (hsupported.scan q op hq hsource).typed⟩
  exact (hcompiles.preserves hplan hbreakers (hsupported.sound hps) hscan hyields).2

/-! ## A written file -/

/-- The rows of the batches that were written. -/
def fileRows (batches : List (List Column)) : List Row :=
  batches.flatMap fun columns => RecordBatch.rows ⟨batchRows columns, none, columns⟩

/-- The table of the scan of a plan. -/
def PlanNode.tableMeta : PlanNode → MetadataTable
  | scan _ tableMeta => tableMeta
  | aggregate child _ _ => child.tableMeta
  | filter child _ => child.tableMeta
  | orderBy child _ _ _ => child.tableMeta
  | limit child _ => child.tableMeta
  | scalar child _ => child.tableMeta
  | drop child _ => child.tableMeta
  | reorder child _ => child.tableMeta

/-- The scan of a compiled plan was made for the table of the plan. -/
theorem PlanNode.Compiles.make_eq {heap : List Breaker} {required : Option (List Bytes)}
    {ps : List PipelineSpec} {p : PipelineSpec} {s : Schema}
    (h : plan.Compiles P heap required ps p s) {op : ScanOperator}
    (hop : scanOf ps p = some (.scan op)) :
    ∃ columnNames, ScanOperator.make columnNames plan.tableMeta = .ok op := by
  induction h with
  | scan hmake _ =>
      obtain ⟨rfl⟩ : SourceRef.scan _ = SourceRef.scan op := Option.some.inj hop
      exact ⟨_, hmake⟩
  | @transform child plan _ _ ps p _ _ t _ hnode ih =>
      have hsame : scanOf ps (p.push t) = scanOf ps p := by cases ps <;> rfl
      have htable : plan.tableMeta = child.tableMeta := by cases hnode <;> rfl
      rw [htable]
      exact ih (hsame ▸ hop)
  | @breaker child plan _ _ ps q _ _ b ref sink _ hnode _ ih =>
      have hsame : scanOf (ps ++ [{ q with sink := some (.breaker ref) }])
          { source := some (.breaker ref), sink := sink } = scanOf ps q := by cases ps <;> rfl
      have htable : plan.tableMeta = child.tableMeta := by cases hnode <;> rfl
      rw [htable]
      exact ih (hsame ▸ hop)

/-- What the constructor of a scan has looked up. -/
theorem ScanOperator.of_make {columnNames : List Bytes} {tableMeta : MetadataTable}
    {op : ScanOperator} (h : ScanOperator.make columnNames tableMeta = .ok op) :
    op.metadata = tableMeta ∧
      op.columnIndices =
        columnNames.map (fun name => (tableMeta.columnMeta.map ColumnMetadata.name).idxOf name) ∧
      ∀ name ∈ columnNames, name ∈ tableMeta.columnMeta.map ColumnMetadata.name := by
  rw [make, except_bind_eq_ok] at h
  obtain ⟨idxs, hidxs, h⟩ := h
  obtain rfl := Except.ok.inj h
  have hfound := (forall₂_of_mapM_ok hidxs).imp fun _ _ hi => findColumn_eq_ok.mp hi
  refine ⟨rfl, ?_, ?_⟩
  · rw [← List.map_id idxs]
    exact map_eq_map_of_forall₂ (hfound.imp fun _ _ hi => hi.2.symm)
  · intro name hname
    obtain ⟨i, -, hlt, hi⟩ := exists_of_forall₂_right hfound.flip hname
    exact List.idxOf_lt_length_iff.mp (hi ▸ hlt)

section written

variable {names columnNames : List Bytes} {types : List ColumnType} {batches : List (List Column)}

/-- The columns of a scan of a batch hold its rows. -/
theorem scanned_rows {columns : List Column} (hlength : columns.length = names.length)
    (hcolumns : ∀ name ∈ columnNames, name ∈ names)
    (hequal : ∀ c ∈ columns, c.size = batchRows columns) :
    (scanned names columnNames columns).WellFormed ∧
      (scanned names columnNames columns).types =
        (columnNames.map fun name => names.idxOf name).map
          (fun i => (columns.map Column.type).getD i default) ∧
      (scanned names columnNames columns).rows =
        (RecordBatch.rows ⟨batchRows columns, none, columns⟩).map
          (keyOf (columnNames.map fun name => names.idxOf name)) := by
  have hlt : ∀ i ∈ columnNames.map (fun name => names.idxOf name), i < columns.length := by
    intro i hi
    obtain ⟨name, hname, rfl⟩ := List.mem_map.mp hi
    exact hlength ▸ List.idxOf_lt_length_iff.mpr (hcolumns name hname)
  obtain ⟨found, hgather, hmem, htypes⟩ :=
    @gather_columns ⟨batchRows columns, none, columns⟩
      (columnNames.map fun name => names.idxOf name) (by simpa [RecordBatch.types] using hlt)
  have hfound : found = columnNames.filterMap fun name => columns[names.idxOf name]? := by
    have hmapM : gather columns (columnNames.map fun name => names.idxOf name) =
        some (columnNames.filterMap fun name => columns[names.idxOf name]?) := by
      rw [gather, List.mapM_map]
      refine mapM_eq_filterMap fun name hname => ?_
      have hget := List.getElem?_eq_getElem (hlt _ (List.mem_map_of_mem hname))
      exact ⟨_, hget, hget⟩
    exact Option.some.inj (hgather.symm.trans hmapM)
  subst hfound
  refine ⟨⟨batchRows columns, fun c hc => hequal c (hmem c hc), fun _ => rfl⟩, htypes, ?_⟩
  exact rows_gather hgather

/-- The metadata table of a written file has the types of the header. -/
theorem Written.metadataTable_types {w : ColumnarWriter} (hw : Written names types w batches)
    (rows : ℕ) :
    (RawTable.metadataTable ⟨w.metadata.map ColumnMetadata.raw, rows⟩).columnMeta.map
      ColumnMetadata.type = types := by
  rw [RawTable.metadataTable, List.map_map, List.map_map, ← hw.types]
  apply List.map_congr_left
  intro m _
  simp [RawMetadata.column, ColumnMetadata.raw]

/-- A scan without columns has the rows of the table, without values. -/
theorem map_keyOf_nil (batches : List (List Column)) :
    (fileRows batches).map (keyOf []) = RecordBatch.rows ⟨totalRows batches, none, []⟩ := by
  have hlength : (fileRows batches).length = totalRows batches := by
    rw [fileRows, List.length_flatMap, totalRows]
    simp [RecordBatch.rows, RecordBatch.selected]
  have hrows : RecordBatch.rows ⟨totalRows batches, none, []⟩ =
      List.replicate (totalRows batches) [] := by
    show (List.range (totalRows batches)).map (fun _ => []) = _
    rw [List.map_const', List.length_range]
  rw [hrows, ← hlength, ← List.map_const']
  rfl

/-- **A scan of a written file** reads the rows of the batches that were written. -/
theorem Written.scans {w : ColumnarWriter} (hw : Written names types w batches) {file : File}
    {table : RawTable} (htable : table = ⟨w.metadata.map ColumnMetadata.raw, totalRows batches⟩)
    (hbatches : ∀ b ∈ batches, FitsHeader types b) (hpre : w.file <+: file.bytes)
    (hequal : ∀ b ∈ batches, ∀ c ∈ b, c.size = batchRows b)
    (hmax : ∀ b ∈ batches, ∀ c ∈ b, (chunkBytes c).length ≤ File.preadMax) {op : ScanOperator}
    (hop : ScanOperator.make columnNames table.metadataTable = .ok op) :
    op.Scans (fileReader file table) ((fileRows batches).map (keyOf op.columnIndices)) := by
  obtain ⟨hmetadata, hindices, hcolumns⟩ := ScanOperator.of_make hop
  have hnames : table.metadataTable.columnMeta.map ColumnMetadata.name = names.map storedName :=
    htable ▸ hw.metadataTable_names _
  have htypes : table.metadataTable.columnMeta.map ColumnMetadata.type = types :=
    htable ▸ hw.metadataTable_types _
  rw [hnames] at hindices hcolumns
  obtain ⟨op', hop', hreadable, hpending⟩ := hw.exists_scan htable hbatches hpre hcolumns hequal
    fun b hb name _ c hc => hmax b hb c (List.mem_of_getElem? hc)
  obtain rfl := Except.ok.inj (hop.symm.trans hop')
  have hfields : typesOf op.fields =
      op.columnIndices.map fun i => types.getD i default := by
    rw [ScanOperator.fields, typesOf, List.map_map, hmetadata, ← htypes]
    apply List.map_congr_left
    intro i _
    show (table.metadataTable.columnMeta.getD i default).type = _
    rw [List.getD_eq_getElem?_getD, List.getD_eq_getElem?_getD, List.getElem?_map]
    cases table.metadataTable.columnMeta[i]? <;> rfl
  have hlength : ∀ b ∈ batches, b.length = (names.map storedName).length := by
    intro b hb
    rw [← List.length_map (f := Column.type), (hbatches b hb).types, ← htypes, ← hnames,
      List.length_map, List.length_map]
  have hscanned := fun b hb => scanned_rows (hlength b hb) hcolumns
    (hequal b hb)
  refine ⟨hreadable, ?_, ?_⟩
  · rw [hpending, emitted]
    intro b hb
    split_ifs at hb with hnil
    · obtain rfl := List.mem_singleton.mp hb
      rw [hfields, hindices, hnil]
      exact ⟨⟨0, by simp, by simp⟩, rfl⟩
    · obtain ⟨columns, hmem, rfl⟩ := List.mem_map.mp hb
      obtain ⟨hwf, hbtypes, -⟩ := hscanned columns hmem
      rw [hfields, hindices, hbtypes, (hbatches columns hmem).types]
      exact ⟨hwf, rfl⟩
  · rw [hpending, emitted, hindices]
    split_ifs with hnil
    · rw [hnil, List.flatMap_singleton]
      exact (map_keyOf_nil batches).symm
    · rw [List.flatMap_map, fileRows, List.map_flatMap]
      apply List.flatMap_congr
      intro columns hmem
      exact (hscanned columns hmem).2.2

end written

/-- **A written file can be read**: it can be opened, and a compiled plan over its table whose
conditions hold of the rows that were written is supported by the reader of the file. -/
theorem supported_of_write {P : Platform} {names : List Bytes} {types : List ColumnType}
    {batches : List (List Column)} (hlen : names.length = types.length)
    (hwidth : types.length < 256 ^ 4) (hcount : batches.length < 256 ^ 4)
    (hbatches : ∀ b ∈ batches, FitsHeader types b)
    (hequal : ∀ b ∈ batches, ∀ c ∈ b, c.size = batchRows b)
    (hmax : ∀ b ∈ batches, ∀ c ∈ b, (chunkBytes c).length ≤ File.preadMax) {file : File}
    (hwrite : writeFile names types batches = .ok file.bytes) :
    ∃ table, parseMetadata file = .ok table ∧
      ∀ (plan : PlanNode) (threads : ℕ) (ctx : BuildContext),
        plan.tableMeta = table.metadataTable → compile P plan threads = .ok ctx →
          ctx.Executable P (ctx.scanned (fileRows batches)) →
            ctx.Supported P (fileReader file table) (ctx.scanned (fileRows batches)) := by
  obtain ⟨w, hw, hpre, hbytes⟩ := exists_written hlen hbatches hwrite
  obtain ⟨table, htable⟩ : ∃ table : RawTable,
    table = ⟨w.metadata.map ColumnMetadata.raw, totalRows batches⟩ := ⟨_, rfl⟩
  refine ⟨table, htable ▸ hw.parseMetadata hbatches hwidth hcount hbytes, ?_⟩
  intro plan threads ctx hplanTable hcompile hexecutable
  refine ⟨hexecutable, ?_⟩
  intro p op hp hop
  obtain ⟨ps, last, hps, hcompiles⟩ := PlanNode.compiles_of_compile hcompile
  have hscanOf : scanOf ps last = some (.scan op) := by
    rw [scanOf, ← hps, List.head?_eq_getElem?, hp, Option.bind_some, hop]
  obtain ⟨columnNames, hmake⟩ := hcompiles.make_eq hscanOf
  rw [BuildContext.scanned_eq hp hop]
  exact hw.scans htable hbatches hpre hequal hmax (hplanTable ▸ hmake)

/-- A file answers the plans over its table: it can be opened, and every run of `Collect` on a plan
that it can execute returns an answer over the rows. -/
def AnswersPlans (P : Platform) (A : SortAlgorithms ℕ) (ord : IterationOrder) (file : File)
    (data : List Row) : Prop :=
  ∃ table, parseMetadata file = .ok table ∧
    ∀ (plan : PlanNode) (threads : ℕ) (ctx : BuildContext),
      plan.tableMeta = table.metadataTable → compile P plan threads = .ok ctx → 0 < threads →
      ctx.Executable P (ctx.scanned data) → plan.IsExact → (∀ b ∈ ctx.breakers, b.IsExact) →
        let prog := ctx.program P A ord (fileReader file table)
        ∀ poolSize as s, 0 < poolSize → run (prog.step P) (prog.init poolSize) as = some s →
          PipelineProgram.Stuck P prog s → PipelineProgram.Collected P prog poolSize s ∧
            ∃ batches, s.shared.sink = .result batches ∧
              (∀ b ∈ batches, b.WellFormed ∧ b.types = typesOf ctx.schema.fields) ∧
              plan.Answers P data none ctx.schema (batches.flatMap RecordBatch.rows)

end ColumnarEngine
