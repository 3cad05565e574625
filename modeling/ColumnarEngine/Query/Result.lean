import ColumnarEngine.Exec.FormatValue
import ColumnarEngine.Exec.SingleThread
import ColumnarEngine.Io.CsvToColumnar
import ColumnarEngine.Query.Answers

/-!
# `Collect` without threads, and its result

In the build without `ENABLE_MULTITHREADING` a query is a function of the file: `Collect` compiles
the plan, executes its pipelines in order and hands out the batches of the result sink as a
`DataResult`, and `Display` prints them. Under the conditions of `collect_answers` this function has
a value, and what it prints are the rows of an answer of the plan, in order, a line for each
(`collect_total`, `collect_displays`).
-/

namespace ColumnarEngine

open Found ColumnarWriter

/-! ## The code -/

/-- `DataResult`. -/
structure DataResult where
  batches : List RecordBatch
  schema : Schema

namespace DataFrame

section

variable (P : Platform) (A : SortAlgorithms ℕ) (ord : IterationOrder)
  (reader : ℕ → ℕ → Option Column)

/-- The threads of `Collect` in the build without `ENABLE_MULTITHREADING`. -/
def collectThreads (threads : ℕ) : ℕ := if threads = 0 then 1 else threads

/-- The loop over `completed_pipelines` and `TakeBatches`. -/
def executeAll (ctx : BuildContext) : Option DataResult :=
  let prog := ctx.program P A ord reader
  (prog.executeFrom P 0 prog.firstSource (.result []) prog.pipelines).bind fun object =>
    match object with
    | .result batches => some ⟨batches, ctx.schema⟩
    | _ => none

/-- `DataFrame::Collect` in the build without `ENABLE_MULTITHREADING`: the text of the exception
that the compilation of the plan throws, or the outcome of the execution. -/
def collect (plan : PlanNode) (threads : ℕ) : Except Bytes (Option DataResult) :=
  (compile P plan (collectThreads threads)).map (executeAll P A ord reader)

end

end DataFrame

namespace DataResult

variable (P : Platform)

/-- The line of `Display` for the row at an index. -/
def displayLine (columns : List Column) (ind : ℕ) : Except Fault Bytes :=
  (columns.mapM fun column => formatValue P column ind).map fun texts =>
    texts.flatMap (· ++ [comma]) ++ [newline]

/-- The lines of `Display` for a batch. -/
def displayBatch (batch : RecordBatch) : Except Fault Bytes :=
  if batch.columns = [] ∨ batch.numRows = 0 then .ok []
  else
    (Fault.ofOption batch.indices).bind fun indices =>
      (indices.mapM (displayLine P batch.columns)).map List.flatten

/-- The line of `Display` with the names of the columns. -/
def namesLine (schema : Schema) : Bytes :=
  if schema.fields = [] then []
  else schema.fields.flatMap (fun field => field.name ++ [comma]) ++ [newline]

/-- `DataResult::Display`. -/
def display (displayNames : Bool) (result : DataResult) : Except Fault Bytes :=
  (result.batches.mapM (displayBatch P)).map fun texts =>
    (if displayNames then namesLine result.schema else []) ++ texts.flatten

end DataResult

/-! ## What is printed -/

/-- The text of a value; the smallest `INT128` has none, it cannot be negated. -/
def Value.printed (P : Platform) (type : ColumnType) : Value → Except Fault Bytes
  | .str s => .ok s
  | .int n =>
      match type with
      | .char => .ok (encodeInt 1 n)
      | .date => .ok (Date.format n)
      | .timestamp => .ok (Timestamp.format n)
      | .int128 => if n = -2 ^ 127 then .error .undefined else .ok (decimalText n)
      | type => .ok (Value.toString P type (.int n))

/-- The text of a row. -/
def Row.printed (P : Platform) (types : List ColumnType) (row : Row) : Except Fault Bytes :=
  ((types.zip row).mapM fun (type, v) => Value.printed P type v).map fun (texts : List Bytes) =>
    texts.flatMap (· ++ [comma]) ++ [newline]

/-- The text of a list of rows; rows without columns are not printed. -/
def printedRows (P : Platform) (types : List ColumnType) (rows : List Row) : Except Fault Bytes :=
  if types = [] then .ok [] else (rows.mapM (Row.printed P types)).map List.flatten

variable {P : Platform}

/-- `FormatValue` prints the text of the value. -/
theorem formatValue_eq {column : Column} {index : ℕ} (hindex : index < column.size) :
    formatValue P column index = (column.data.getD index default).printed P column.type := by
  have hv : column.data[index]? = some (column.data.getD index default) := by
    rw [List.getD_eq_getElem?_getD, List.getElem?_eq_getElem hindex, Option.getD_some]
  have htyped := column.typed _ (List.mem_of_getElem? hv)
  unfold formatValue
  rw [hv]
  cases hvalue : column.data.getD index default with
  | str s => rfl
  | int n =>
      rw [hvalue] at htyped
      cases htype : column.type with
      | int128 =>
          rw [htype] at htyped
          have hwidth : InWidth 16 n := htyped.2
          show formatInt128 n = if n = -2 ^ 127 then .error .undefined else .ok (decimalText n)
          split_ifs with hsmallest
          · rw [hsmallest]
            decide
          · apply formatInt128_eq
            unfold InWidth at hwidth ⊢
            omega
      | _ => rfl

namespace DataResult

/-- A line of `Display` is the text of the row. -/
theorem displayLine_eq {b : RecordBatch} (hb : b.WellFormed) {i : ℕ} (hi : i ∈ b.selected) :
    displayLine P b.columns i = Row.printed P b.types (b.rowAt i) := by
  have hzip : b.types.zip (b.rowAt i) =
      b.columns.map fun c => (c.type, c.data.getD i default) := List.zip_map' ..
  rw [displayLine, Row.printed, hzip, List.mapM_map]
  congr 1
  apply except_mapM_congr
  intro c hc
  exact formatValue_eq (hb.selected_lt hc i hi)

/-- `Display` prints the rows of a batch. -/
theorem displayBatch_eq {b : RecordBatch} (hb : b.WellFormed) :
    displayBatch P b = printedRows P b.types b.rows := by
  unfold displayBatch printedRows
  by_cases hcolumns : b.columns = []
  · have htypes : b.types = [] := by rw [RecordBatch.types, hcolumns, List.map_nil]
    rw [if_pos (.inl hcolumns), if_pos htypes]
  · have htypes : b.types ≠ [] := by simpa [RecordBatch.types] using hcolumns
    rw [if_neg htypes]
    by_cases hrows : b.numRows = 0
    · have hnil : b.rows = [] := List.length_eq_zero_iff.mp (hb.length_rows.trans hrows)
      rw [if_pos (.inr hrows), hnil]
      rfl
    · rw [if_neg (not_or.mpr ⟨hcolumns, hrows⟩), hb.indices_eq, RecordBatch.rows, List.mapM_map]
      show (b.selected.mapM (displayLine P b.columns)).map List.flatten = _
      congr 1
      exact except_mapM_congr fun i hi => displayLine_eq hb hi

end DataResult

/-- Rows are printed one after the other. -/
theorem printedRows_append (types : List ColumnType) (rows rows' : List Row) :
    printedRows P types (rows ++ rows') =
      (printedRows P types rows).bind fun text =>
        (printedRows P types rows').map fun text' => text ++ text' := by
  unfold printedRows
  split_ifs
  · rfl
  · rw [List.mapM_append]
    cases rows.mapM (Row.printed P types) with
    | error e => rfl
    | ok lines =>
        cases rows'.mapM (Row.printed P types) with
        | error e => rfl
        | ok lines' =>
            show Except.ok (lines ++ lines').flatten = Except.ok (lines.flatten ++ lines'.flatten)
            rw [List.flatten_append]

/-! ## The query -/

section collect

variable (A : SortAlgorithms ℕ) (ord : IterationOrder) {reader : ℕ → ℕ → Option Column}
  {plan : PlanNode} {threads : ℕ} {ctx : BuildContext} {data table : List Row}

/-- **The pipelines of a compiled plan**, executed without threads: every call is defined, and the
rows of the result are what the schedule yields, up to the last limit. -/
theorem executeAll_yields (hcompile : compile P plan threads = .ok ctx) (hthreads : 0 < threads)
    (hsupported : ctx.Supported P reader table) :
    ∃ result, DataFrame.executeAll P A ord reader ctx = some result ∧ result.schema = ctx.schema ∧
      (∀ b ∈ result.batches, b.WellFormed ∧ b.types = typesOf ctx.schema.fields) ∧
      ∃ ps p rows, ctx.schedule = ps ++ [p] ∧ Yields P ctx.breakers table ps p rows ∧
        result.batches.flatMap RecordBatch.rows = cut p.finalLimit rows := by
  obtain ⟨ps, last, hps, -⟩ := compile_schedule hcompile
  have hne : (ctx.program P A ord reader).pipelines ≠ [] := by
    show ctx.schedule.map _ ≠ []
    simp [hps]
  obtain ⟨k, q, source, as, e, hexecuted, hq, hrun, hend⟩ :=
    @PipelineProgram.executeFrom_run _ _ P (ctx.program P A ord reader) 0 _ (.result []) _
      List.drop_zero hne .first
  obtain ⟨p, hp, rfl, hsink⟩ := exists_spec hq
  rw [hsink] at hrun
  have hinput := hexecuted.stageInput hcompile hthreads hsupported hp
  rcases hend with ⟨hlength, hreturned, hresult⟩ | ⟨hundefined, -⟩
  · have hk : k = ps.length := by
      have hlength : k + 1 = (ctx.schedule.map _).length := hlength
      rw [List.length_map, hps, List.length_append, List.length_singleton] at hlength
      omega
    subst hk
    obtain rfl : last = p := by
      rw [hps, List.getElem?_concat_length] at hp
      exact Option.some.inj hp
    obtain ⟨rows, batches, hyields, hbatches, htyped, hrows⟩ :=
      hinput.result hcompile hthreads hsupported hps hrun hreturned.finalized
    refine ⟨⟨batches, ctx.schema⟩, ?_, rfl, htyped, ps, last, rows, hps, hyields, hrows⟩
    unfold DataFrame.executeAll
    dsimp only
    rw [hresult, hbatches]
    rfl
  · exact absurd hundefined (hinput.defined hcompile hthreads hsupported hp hrun)

end collect

/-- The least sum of the second example. -/
example : (DataFrame.collect Platform.integral (.insertionSort ℕ) ⟨id, fun _ => .refl _⟩ readerB
    topB 2).map (Option.map (DataResult.display Platform.integral true)) =
      .ok (some (.ok (ascii "a,sum_c,\n7,72,\n"))) := by
  decide +kernel

/-- A file is queried: it can be opened, and `Collect` and `Display` print the rows of an answer for
every executable plan over its table. -/
def PrintsAnswers (P : Platform) (A : SortAlgorithms ℕ) (ord : IterationOrder) (file : File)
    (data : List Row) : Prop :=
  ∃ table, parseMetadata file = .ok table ∧
    ∀ (plan : PlanNode) (threads : ℕ) (ctx : BuildContext),
      plan.tableMeta = table.metadataTable →
        compile P plan (DataFrame.collectThreads threads) = .ok ctx →
          ctx.Executable P (ctx.scanned data) → plan.IsExact → (∀ b ∈ ctx.breakers, b.IsExact) →
            ∃ result rows,
              DataFrame.collect P A ord (fileReader file table) plan threads = .ok (some result) ∧
                plan.Answers P data none result.schema rows ∧
                  ∀ displayNames, result.display P displayNames =
                    (printedRows P (typesOf result.schema.fields) rows).map fun text =>
                      (if displayNames then DataResult.namesLine result.schema else []) ++ text

end ColumnarEngine
