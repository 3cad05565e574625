import ColumnarEngine.Io.ConvertLoss

/-!
# The width of a schema

`ConvertWithSchema` reads no header, so its reader expects no width, and a cache is as wide as its
first row. A conversion that returns is right exactly when every row has a field for every column of
the schema, each of which parses (`widthEnforced_iff`); a conversion that throws has come to a field
that does not parse before it came to an index out of range.
-/

namespace ColumnarEngine

open Found

variable {P : Platform} {types : List ColumnType} {rows : List (List Bytes)}

/-- The first lookup of the conversion that fails is that of a field that is found and refused by an
exception. -/
def Refused (P : Platform) (types : List ColumnType) (rows : List (List Bytes)) : Prop :=
  ∃ before cached i j after, accesses 0 [] rows = before ++ .cell cached i j :: after ∧
    (∀ access ∈ before, access.check P 0 types = .ok ()) ∧
    ∃ t value text, types[j]? = some t ∧ cellAt cached i j = some value ∧
      t.fromString P value = .error (.exception text)

/-- The output holds rows of the width of the header: its batches have the columns of the header,
all of one length, and the columns hold the same first rows. -/
def Aligned (P : Platform) (types : List ColumnType) (rows : List (List Bytes)) (out : Output) :
    Prop :=
  (∀ row ∈ rows, row.length = types.length) ∧
  (∀ columns ∈ out.batches, columns.length = types.length ∧
    ∀ c ∈ columns, ∀ c' ∈ columns, c.size = c'.size) ∧
  ∃ m, ∀ j t, types[j]? = some t → ColumnIs P t j (rows.take m) (columnValues out.batches j)

/-- `ConvertWithSchema` throws, or it returns a file of rows of the width of the schema; `reader` is
the one it reads them with. -/
def WidthEnforced (P : Platform) (csv schemaText : Bytes) (reader : CsvReader) (schema : Schema)
    (rows : List (List Bytes)) : Prop :=
  (∃ text, convertWithSchema P csv schemaText = .error (.exception text)) ∨
  ∃ out,
    writeRows P schema.names schema.types reader (schema.types.map makeColumnBuilder) = .ok out ∧
    convertWithSchema P csv schemaText = out.writer.finalize ∧ Aligned P schema.types rows out

/-! ## Exceptions -/

/-- A cell is refused by an exception. -/
theorem cellCheck_eq_exception {type : Option ColumnType} {field : Option Bytes} {text : Bytes} :
    cellCheck P type field = .error (.exception text) ↔
      ∃ t value, type = some t ∧ field = some value ∧
        t.fromString P value = .error (.exception text) := by
  cases type with
  | none => simp [cellCheck, Fault.ofOption, Except.bind]
  | some t =>
      cases field with
      | none => simp [cellCheck, Fault.ofOption, Except.bind]
      | some value =>
          cases hvalue : t.fromString P value with
          | error fault => simp [cellCheck, Fault.ofOption, Except.bind, Except.map, hvalue]
          | ok v => simp [cellCheck, Fault.ofOption, Except.bind, Except.map, hvalue]

/-- A reader that expects no width refuses no row. -/
theorem readInto_ne_exception (cached : List (List Bytes)) (fields : List Bytes) (text : Bytes) :
    readInto 0 cached fields ≠ .error (.exception text) := by
  rw [readInto]
  split_ifs
  · simp
  · simp [CsvReader.checkRow, Except.mapError, Except.map]

/-- The conversion ends with an exception where a field is refused. -/
theorem checks_eq_exception_iff :
    (∃ text, checks (Access.check P 0 types) (accesses 0 [] rows) = .error (.exception text)) ↔
      Refused P types rows := by
  simp only [checks_eq_error_iff]
  constructor
  · rintro ⟨text, before, access, after, hsplit, hbefore, hcheck⟩
    cases access with
    | row cached fields => exact absurd hcheck (readInto_ne_exception cached fields text)
    | cell cached i j =>
        obtain ⟨t, value, ht, hvalue, hparse⟩ := cellCheck_eq_exception.mp hcheck
        exact ⟨before, cached, i, j, after, hsplit, hbefore, t, value, text, ht, hvalue, hparse⟩
  · rintro ⟨before, cached, i, j, after, hsplit, hbefore, t, value, text, ht, hvalue, hparse⟩
    exact ⟨text, before, .cell cached i j, after, hsplit, hbefore,
      cellCheck_eq_exception.mpr ⟨t, value, ht, hvalue, hparse⟩⟩

/-! ## The conversion -/

section Conversion

variable {columnNames : List Bytes} {reader : CsvReader} {delim : UInt8} {text : Bytes}

/-- Rows of the width of the header that parse are aligned. -/
theorem exists_aligned (hnames : columnNames.length = types.length)
    (hreads : reader.Reads delim text) (hrows : RowsOf delim text rows)
    (hzero : reader.expectedColumns = 0) (hparses : ∀ row ∈ rows, Parses P types row) :
    ∃ out, writeRows P columnNames types reader (types.map makeColumnBuilder) = .ok out ∧
      Aligned P types rows out := by
  obtain ⟨out, written, pending, hout, hcarries, rfl, -⟩ :=
    exists_writeRows hnames hreads hrows (fun _ _ hn => absurd hzero hn) hparses
  refine ⟨out, hout, fun row hrow => (hparses row hrow).length_eq, hcarries.even,
    written.length, ?_⟩
  rw [List.take_left]
  exact hcarries.batches

/-- How `WriteToColumnar` ends. -/
theorem writeRows_guarded (hnames : columnNames.length = types.length)
    (hreads : reader.Reads delim text) (hrows : RowsOf delim text rows)
    (hzero : reader.expectedColumns = 0) :
    Guarded (fun out => out.Sound types) (checks (Access.check P 0 types) (accesses 0 [] rows))
      (writeRows P columnNames types reader (types.map makeColumnBuilder)) := by
  obtain ⟨w, hw, hsound, -⟩ := exists_start P hnames
  rw [writeRows_eq P columnNames types hreads hrows, hw, hzero]
  exact (convertRows_guarded hsound rows).mono fun out h => h.2

/-- **The width of the header** is kept, or the conversion throws, exactly when every row has a
field for every column that parses, or a field is refused. -/
theorem writeRows_width_iff (hnames : columnNames.length = types.length)
    (hreads : reader.Reads delim text) (hrows : RowsOf delim text rows)
    (hzero : reader.expectedColumns = 0) :
    ((∃ text, writeRows P columnNames types reader (types.map makeColumnBuilder) =
        .error (.exception text)) ∨
      ∃ out, writeRows P columnNames types reader (types.map makeColumnBuilder) = .ok out ∧
        Aligned P types rows out) ↔
      (∀ row ∈ rows, Parses P types row) ∨ Refused P types rows := by
  have hguarded := writeRows_guarded (P := P) hnames hreads hrows hzero
  constructor
  · rintro (⟨text, htext⟩ | ⟨out, hout, hwidth, -⟩)
    · exact .inr (checks_eq_exception_iff.mp ⟨text, hguarded.eq_error_iff.mp htext⟩)
    · exact .inl (parses_of_accesses hwidth (checks_eq_ok_iff.mp (hguarded.of_ok hout).1))
  · rintro (hparses | hrefused)
    · exact .inr (exists_aligned hnames hreads hrows hzero hparses)
    · obtain ⟨text, htext⟩ := checks_eq_exception_iff.mpr hrefused
      exact .inl ⟨text, hguarded.eq_error_iff.mpr htext⟩

end Conversion

section Schema

variable {csv schemaText : Bytes} {schema : Schema}

theorem length_names (schema : Schema) : schema.names.length = schema.types.length := by
  rw [Schema.names, Schema.types, List.length_map, List.length_map]

/-- `ConvertWithSchema` of a schema that is read. -/
theorem convertWithSchema_eq (hschema : Schema.deserializeSchema schemaText = .ok schema) :
    convertWithSchema P csv schemaText =
      (writeRows P schema.names schema.types (.ofContent (Nat.two_pow_pos 27) csv comma)
        (schema.types.map makeColumnBuilder)).bind fun out => out.writer.finalize := by
  rw [convertWithSchema, hschema]
  rfl

/-- `WidthEnforced` is about the conversion of the rows. -/
theorem widthEnforced_of_rowsOf (hschema : Schema.deserializeSchema schemaText = .ok schema)
    (hrows : RowsOf comma csv rows) :
    WidthEnforced P csv schemaText (.ofContent (Nat.two_pow_pos 27) csv comma) schema rows ↔
      (∀ row ∈ rows, Parses P schema.types row) ∨ Refused P schema.types rows := by
  have hreads : (CsvReader.ofContent (Nat.two_pow_pos 27) csv comma).Reads comma csv :=
    CsvReader.reads_ofContent _ csv comma 0
  have hguarded := writeRows_guarded (P := P) (length_names schema) hreads hrows rfl
  rw [← writeRows_width_iff (length_names schema) hreads hrows rfl, WidthEnforced,
    convertWithSchema_eq hschema]
  generalize writeRows P _ _ _ _ = written at hguarded ⊢
  cases written with
  | error fault => simp [Except.bind]
  | ok out =>
      have hheader : out.writer.headerWritten := (hguarded.of_ok rfl).2.header
      simp [Except.bind, ColumnarWriter.finalize, hheader]

/-- **`ConvertWithSchema`** keeps the width of its schema, or throws, exactly when every row has a
field for every column of the schema, each of which parses, or the first lookup that fails is that
of a field that is refused. -/
theorem widthEnforced_iff (P : Platform)
    (hschema : Schema.deserializeSchema schemaText = .ok schema)
    (hrows : Tokenizes (.ofContent (Nat.two_pow_pos 27) csv comma) rows) :
    WidthEnforced P csv schemaText (.ofContent (Nat.two_pow_pos 27) csv comma) schema rows ↔
      (∀ row ∈ rows, Parses P schema.types row) ∨ Refused P schema.types rows :=
  widthEnforced_of_rowsOf hschema ((tokenizes_iff (CsvTokenizer.valid_ofContent _ _ _)).mp hrows)

/-- A schema of two columns of strings. -/
def twoStrings : Bytes := ascii "a,STRING\nb,STRING\n"

theorem deserializeSchema_twoStrings :
    Schema.deserializeSchema twoStrings = .ok ⟨[⟨ascii "a", .string⟩, ⟨ascii "b", .string⟩]⟩ := by
  decide

/-- A text of rows of two fields. -/
theorem widthEnforced_twoFields :
    WidthEnforced Platform.integral (ascii "x,y\n") twoStrings
      (.ofContent (Nat.two_pow_pos 27) (ascii "x,y\n") comma)
      ⟨[⟨ascii "a", .string⟩, ⟨ascii "b", .string⟩]⟩ [[ascii "x", ascii "y"]] := by
  have hfirst : firstRow comma (ascii "x,y\n") = ([ascii "x", ascii "y"], some []) := by decide
  have hrows : RowsOf comma (ascii "x,y\n") [[ascii "x", ascii "y"]] :=
    (rowsOf_iff_of_some hfirst).mpr ⟨_, rfl, rowsOf_nil⟩
  refine (widthEnforced_iff Platform.integral deserializeSchema_twoStrings
    ((tokenizes_iff (CsvTokenizer.valid_ofContent _ _ _)).mpr hrows)).mpr (.inl ?_)
  simp [Parses, Schema.types, ColumnType.fromString]

/-- Columns of strings refuse no field. -/
theorem not_refused_of_strings (h : ∀ t ∈ types, t = .string) : ¬ Refused P types rows := by
  rintro ⟨before, cached, i, j, after, -, -, t, value, text, ht, -, hparse⟩
  rw [h t (List.mem_of_getElem? ht)] at hparse
  exact absurd hparse (by simp [ColumnType.fromString])

/-- A text of rows of one field: the second column stays empty. -/
theorem not_widthEnforced_oneField :
    ∃ schema rows, Schema.deserializeSchema twoStrings = .ok schema ∧
      Tokenizes (CsvTokenizer.ofContent (Nat.two_pow_pos 27) (ascii "x\ny\n") comma) rows ∧
      ¬ WidthEnforced Platform.integral (ascii "x\ny\n") twoStrings
        (.ofContent (Nat.two_pow_pos 27) (ascii "x\ny\n") comma) schema rows := by
  have hfirst : firstRow comma (ascii "x\ny\n") = ([ascii "x"], some (ascii "y\n")) := by decide
  have hsecond : firstRow comma (ascii "y\n") = ([ascii "y"], some []) := by decide
  have hrows : RowsOf comma (ascii "x\ny\n") [[ascii "x"], [ascii "y"]] :=
    (rowsOf_iff_of_some hfirst).mpr
      ⟨_, rfl, (rowsOf_iff_of_some hsecond).mpr ⟨_, rfl, rowsOf_nil⟩⟩
  refine ⟨_, _, deserializeSchema_twoStrings,
    (tokenizes_iff (CsvTokenizer.valid_ofContent _ _ _)).mpr hrows, fun henforced => ?_⟩
  obtain hparses | hrefused :=
    (widthEnforced_of_rowsOf deserializeSchema_twoStrings hrows).mp henforced
  · exact absurd (hparses [ascii "x"] List.mem_cons_self).length_eq (by decide)
  · exact not_refused_of_strings (by decide) hrefused

end Schema

end ColumnarEngine
