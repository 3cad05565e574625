import ColumnarEngine.Io.ConvertFile
import ColumnarEngine.Io.ConvertRagged
import ColumnarEngine.Query.Result

/-!
# Queries over a converted text

From the text of a CSV file to the answer of a query: when no row is left in the builders the rows
of the file that `CsvToColumnar` writes are the rows of the text, with every field parsed to the
type of its column, and the file answers the plans over them.
-/

namespace ColumnarEngine

open Found ColumnarWriter

variable {P : Platform} {types : List ColumnType}

/-! ## The rows of the file -/

/-- The values of a row of fields. -/
def parseRow (P : Platform) (types : List ColumnType) (fields : List Bytes) : Except Fault Row :=
  (types.zip fields).mapM fun (t, field) => (t.fromString P field).map (Value.conv t)

/-- Values that are those of the fields, column by column. -/
theorem parseRow_eq_ok {fields : List Bytes} {values : Row} (hfields : fields.length = types.length)
    (hvalues : values.length = types.length)
    (hcells : ∀ j t, types[j]? = some t → CellIs P t fields[j]? (values.getD j default)) :
    parseRow P types fields = .ok values := by
  induction types generalizing fields values with
  | nil =>
      obtain rfl := List.length_eq_zero_iff.mp hvalues
      rw [parseRow, List.zip_nil_left]
      rfl
  | cons t types ih =>
      obtain ⟨field, fields, rfl⟩ := List.exists_cons_of_length_eq_add_one hfields
      obtain ⟨v, values, rfl⟩ := List.exists_cons_of_length_eq_add_one hvalues
      obtain ⟨_, u, ⟨rfl⟩, hparse, hv⟩ := hcells 0 t rfl
      have hrest := ih (Nat.succ.inj hfields) (Nat.succ.inj hvalues) fun j t' ht' =>
        hcells (j + 1) t' ht'
      obtain rfl : v = u.conv t := hv
      rw [parseRow] at hrest
      rw [parseRow, List.zip_cons_cons, List.mapM_cons, hrest]
      show ((t.fromString P field).map (Value.conv t) >>= _) = _
      rw [hparse]
      rfl

/-- The rows of batches with columns of one length. -/
theorem getD_fileRows {batches : List (List Column)}
    (hequal : ∀ columns ∈ batches, ∀ c ∈ columns, c.size = ColumnarWriter.batchRows columns) {j : ℕ}
    (hj : ∀ columns ∈ batches, j < columns.length) :
    (fileRows batches).map (fun row => row.getD j default) = columnValues batches j := by
  rw [fileRows, columnValues, List.map_flatMap]
  apply List.flatMap_congr
  intro columns hcolumns
  have hlt := hj columns hcolumns
  have hc := List.getElem?_eq_getElem hlt
  have hsize := hequal columns hcolumns _ (List.mem_of_getElem? hc)
  rw [hc, Option.map_some, Option.getD_some, RecordBatch.rows, List.map_map, ← hsize]
  conv => rhs; rw [← map_getD_range columns[j].data default]
  apply List.map_congr_left
  intro i _
  show (columns.map fun c => c.data.getD i default).getD j default = columns[j].data.getD i default
  rw [List.getD_eq_getElem?_getD, List.getElem?_map, hc]
  rfl

/-- A row that is parsed has its values in the columns of the file. -/
theorem Carries.forall₂_parseRow {out : Output} {rows : List (List Bytes)}
    (h : Carries P types out rows []) (hne : ∀ row ∈ rows, row ≠ [])
    (hwidth : ∀ row ∈ rows, row.length = types.length)
    (hequal : ∀ columns ∈ out.batches, ∀ c ∈ columns, c.size = ColumnarWriter.batchRows columns)
    (hpos : ∀ columns ∈ out.batches, 0 < ColumnarWriter.batchRows columns) :
    List.Forall₂ (fun row values => parseRow P types row = .ok values) rows
      (fileRows out.batches) := by
  by_cases htypes : types = []
  · -- there are neither rows nor batches
    have hrows : rows = [] := by
      rw [List.eq_nil_iff_forall_not_mem]
      intro row hrow
      apply hne row hrow
      rw [← List.length_eq_zero_iff, hwidth row hrow, htypes, List.length_nil]
    have hbatches : out.batches = [] := by
      rw [List.eq_nil_iff_forall_not_mem]
      intro columns hcolumns
      have hlength := (h.even columns hcolumns).1
      rw [htypes, List.length_nil, List.length_eq_zero_iff] at hlength
      have hzero := hpos columns hcolumns
      rw [hlength] at hzero
      exact absurd hzero (by decide)
    rw [hrows, hbatches]
    exact .nil
  · have hcolumn : ∀ j t, types[j]? = some t → ColumnIs P t j rows
        ((fileRows out.batches).map fun row => row.getD j default) := by
      intro j t ht
      have hlt := (List.getElem?_eq_some_iff.mp ht).1
      rw [getD_fileRows hequal fun columns hcolumns => (h.even columns hcolumns).1.symm ▸ hlt]
      exact h.batches j t ht
    have hlength : rows.length = (fileRows out.batches).length := by
      have hfirst := List.getElem?_eq_getElem (List.length_pos_of_ne_nil htypes)
      simpa using (hcolumn 0 _ hfirst).length_eq
    rw [List.forall₂_iff_get]
    refine ⟨hlength, fun i hi hi' => ?_⟩
    apply parseRow_eq_ok (hwidth _ (List.getElem_mem hi))
    · obtain ⟨columns, hcolumns, hrow⟩ := List.mem_flatMap.mp (List.getElem_mem hi')
      obtain ⟨k, -, hk⟩ := List.mem_map.mp hrow
      show (fileRows out.batches)[i].length = _
      rw [← hk, RecordBatch.rowAt, List.length_map]
      exact (h.even columns hcolumns).1
    · intro j t ht
      have hcell := (hcolumn j t ht).get hi (by simpa using hi')
      simpa using hcell

/-- A value is as long as the field it was parsed of, if it is a string. -/
theorem CellIs.length_le {t : ColumnType} {field : Option Bytes} {v : Value} {n : ℕ}
    (h : CellIs P t field v) (hfield : ∀ value, field = some value → value.length ≤ n) :
    v.length ≤ n := by
  obtain ⟨value, u, hvalue, hparse, rfl⟩ := h
  by_cases ht : t = .string
  · subst ht
    obtain rfl : .str value = u := Except.ok.inj hparse
    apply le_trans _ (hfield value hvalue)
    show (if value.length < 256 ^ 8 then value else []).length ≤ value.length
    split_ifs
    · exact le_rfl
    · exact Nat.zero_le _
  · have htyped := Value.hasType_conv t u
    cases hu : u.conv t with
    | int n => exact Nat.zero_le _
    | str s =>
        rw [hu] at htyped
        exact absurd htyped.1 ht

/-- The bytes of a value. -/
theorem length_valueBytes_le {t : ColumnType} {v : Value} (hv : v.length ≤ 2 ^ 17) :
    (valueBytes t v).length ≤ 2 ^ 17 + 4 := by
  cases v with
  | int n =>
      have hsize : t.elemSize ≤ 16 := by cases t <;> decide
      rw [valueBytes, length_encodeInt]
      omega
  | str s =>
      have hs : s.length ≤ 2 ^ 17 := hv
      rw [valueBytes, List.length_append, length_toLE]
      split_ifs
      · omega
      · rw [List.length_nil]
        omega

/-- A chunk of values that are short is read in one transfer. -/
theorem length_chunkBytes_le {c : Column} (hsize : c.size ≤ kRowsPerChunk)
    (hshort : ∀ v ∈ c.data, v.length ≤ 2 ^ 17) : (chunkBytes c).length ≤ File.preadMax := by
  have hsum : ∀ l : List Value, (∀ v ∈ l, v.length ≤ 2 ^ 17) →
      (l.flatMap (valueBytes c.type)).length ≤ l.length * (2 ^ 17 + 4) := by
    intro l hl
    rw [List.length_flatMap]
    have hsum := (l.map fun v => (valueBytes c.type v).length).sum_le_card_nsmul (2 ^ 17 + 4)
    rw [List.length_map, smul_eq_mul] at hsum
    apply hsum
    intro x hx
    obtain ⟨v, hv, rfl⟩ := List.mem_map.mp hx
    exact length_valueBytes_le (hl v hv)
  have hle := hsum c.data hshort
  have hrows : c.data.length ≤ 8192 := hsize
  have hmax : File.preadMax = 2147479552 := rfl
  rw [chunkBytes]
  omega

/-- The values of the file are short if the fields are. -/
theorem Carries.short {out : Output} {rows : List (List Bytes)} (h : Carries P types out rows [])
    (hfields : ∀ row ∈ rows, ∀ field ∈ row, field.length ≤ 2 ^ 17) :
    ∀ columns ∈ out.batches, ∀ c ∈ columns, ∀ v ∈ c.data, v.length ≤ 2 ^ 17 := by
  intro columns hcolumns c hc v hv
  obtain ⟨j, hj⟩ := List.getElem?_of_mem hc
  have hlt : j < types.length :=
    (h.even columns hcolumns).1 ▸ (List.getElem?_eq_some_iff.mp hj).1
  have hmem : v ∈ columnValues out.batches j := by
    refine List.mem_flatMap.mpr ⟨columns, hcolumns, ?_⟩
    rw [hj]
    exact hv
  obtain ⟨row, hrow, hcell⟩ :=
    exists_of_forall₂_right (h.batches j _ (List.getElem?_eq_getElem hlt)) hmem
  exact hcell.length_le fun value hvalue => hfields row hrow value (List.mem_of_getElem? hvalue)

/-- No batch is empty. -/
theorem length_le_fileRows {batches : List (List Column)}
    (hpos : ∀ columns ∈ batches, 0 < batchRows columns) :
    batches.length ≤ (fileRows batches).length := by
  induction batches with
  | nil => exact le_rfl
  | cons columns batches ih =>
      have hfirst := hpos columns List.mem_cons_self
      have hrest := ih fun columns' h => hpos columns' (List.mem_cons_of_mem columns h)
      have hrows : (RecordBatch.rows ⟨batchRows columns, none, columns⟩).length =
          batchRows columns := by simp [RecordBatch.rows, RecordBatch.selected]
      rw [fileRows] at hrest
      rw [fileRows, List.flatMap_cons, List.length_append, List.length_cons, hrows]
      omega

/-! ## The conversion -/

/-- What is converted: rows that parse, none of which stays in the builders, with fields that are
short enough for a chunk to be read in one transfer. -/
structure Convertible (P : Platform) (types : List ColumnType) (rows : List (List Bytes)) :
    Prop where
  parses : ∀ row ∈ rows, Parses P types row
  flushed : rows.length % kRowsPerChunk = 0 ∨ openBytes rows ≠ cacheBytes []
  fields : ∀ row ∈ rows, ∀ field ∈ row, field.length ≤ 2 ^ 17
  count : rows.length < 256 ^ 4

/-- **A conversion writes the file of the parsed rows**, in batches that can be scanned. -/
theorem Convertible.exists_file {names : List Bytes} (hnames : names.length = types.length)
    {reader : CsvReader} {delim : UInt8} {text : Bytes} {rows : List (List Bytes)}
    (h : Convertible P types rows) (hreads : reader.Reads delim text)
    (hrows : RowsOf delim text rows)
    (hn : ∀ row ∈ rows, reader.expectedColumns ≠ 0 → row.length = reader.expectedColumns) :
    ∃ bytes batches,
      writeToColumnar P names types reader (types.map makeColumnBuilder) = .ok bytes ∧
      writeFile names types batches = .ok bytes ∧
      rows.mapM (parseRow P types) = .ok (fileRows batches) ∧ batches.length < 256 ^ 4 ∧
      ∀ b ∈ batches, FitsHeader types b ∧ (∀ c ∈ b, c.size = batchRows b) ∧
        ∀ c ∈ b, (chunkBytes c).length ≤ File.preadMax := by
  obtain ⟨out, written, pending, hout, hcarries, happend, hiff⟩ :=
    exists_writeRows hnames hreads hrows hn h.parses
  obtain rfl := hiff.mpr h.flushed
  obtain rfl : written = rows := by simpa using happend
  have hchunked := writeRows_chunked hnames hreads hrows hout
  have hequal : ∀ columns ∈ out.batches, ∀ c ∈ columns, c.size = batchRows columns := by
    intro columns hcolumns c hc
    obtain ⟨first, rest, rfl⟩ := List.exists_cons_of_ne_nil (List.ne_nil_of_mem hc)
    exact (hcarries.even _ hcolumns).2 c hc first List.mem_cons_self
  have hpos := fun columns hcolumns => (hchunked.batches columns hcolumns).2.1
  have hparsed := hcarries.forall₂_parseRow hrows.ne_nil
    (fun row hrow => (h.parses row hrow).length_eq) hequal hpos
  have hshort := hcarries.short h.fields
  have hfits : ∀ columns ∈ out.batches, FitsHeader types columns := by
    intro columns hcolumns
    refine ⟨(hchunked.batches columns hcolumns).1, ?_⟩
    intro c hc v hv
    exact (hshort columns hcolumns c hc v hv).trans_lt (by norm_num)
  obtain ⟨w, -, hfile⟩ := writeFile_eq_ok hnames hfits
  refine ⟨_, out.batches, ?_, hfile, mapM_ok_of_forall₂ hparsed, ?_, ?_⟩
  · rw [writeToColumnar, hout]
    exact hchunked.writeFile_eq.symm.trans hfile
  · have hlength := hparsed.length_eq
    have hle := length_le_fileRows hpos
    have hcount := h.count
    omega
  · intro columns hcolumns
    refine ⟨hfits columns hcolumns, hequal columns hcolumns, ?_⟩
    intro c hc
    exact length_chunkBytes_le ((hchunked.batches columns hcolumns).2.2 c hc)
      (hshort columns hcolumns c hc)

/-- The file of the bytes answers the plans over its table, under any schedule of the threads of
`Collect` and in the build without threads. -/
def Answering (P : Platform) (A : SortAlgorithms ℕ) (ord : IterationOrder) (bytes : Bytes)
    (data : List Row) : Prop :=
  ∀ file : File, file.bytes = bytes →
    AnswersPlans P A ord file data ∧ PrintsAnswers P A ord file data

section answering

variable (A : SortAlgorithms ℕ) (ord : IterationOrder) {csv schemaText : Bytes}
  {rows : List (List Bytes)}

/-- A text of two rows is converted. -/
theorem convertible_two_rows :
    RowsOf comma (ascii "3\n5\n") [[ascii "3"], [ascii "5"]] ∧
      Convertible Platform.integral [.int32] [[ascii "3"], [ascii "5"]] := by
  have hfirst : firstRow comma (ascii "3\n5\n") = ([ascii "3"], some (ascii "5\n")) := by decide
  have hsecond : firstRow comma (ascii "5\n") = ([ascii "5"], some []) := by decide
  refine ⟨?_, ?_, .inr (by decide), by decide, by decide⟩
  · exact (rowsOf_iff_of_some hfirst).mpr
      ⟨_, rfl, (rowsOf_iff_of_some hsecond).mpr ⟨_, rfl, rowsOf_nil⟩⟩
  · intro row hrow
    rcases List.mem_pair.mp hrow with rfl | rfl
    · exact .cons ⟨.int 3, by decide⟩ .nil
    · exact .cons ⟨.int 5, by decide⟩ .nil

end answering

end ColumnarEngine
