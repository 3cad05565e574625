import ColumnarEngine.Io.ConvertLoad
import ColumnarEngine.Io.CsvFields

/-!
# Rows that are never written

Where every row has a field for every column, loading appends the rows of a cache to the builders
and a flush moves them to the file. The last flush is missing where the last row completes a cache
of a MiB but not a chunk: the next cache is empty, and the loop is left with rows in the builders
(`written_iff`).
-/

namespace ColumnarEngine

open Found

variable {P : Platform} {types : List ColumnType}

/-! ## The rows in the builders and in the file -/

/-- The elements of a column in batches, one batch after another. -/
def columnValues (batches : List (List Column)) (j : ℕ) : List Value :=
  batches.flatMap fun columns => (columns[j]?.map Column.data).getD []

/-- A column holds the fields of the rows at its index. -/
def ColumnIs (P : Platform) (t : ColumnType) (j : ℕ) (rows : List (List Bytes)) (vs : List Value) :
    Prop :=
  List.Forall₂ (fun row v => CellIs P t row[j]? v) rows vs

/-- The file holds rows, the builders hold others. -/
structure Carries (P : Platform) (types : List ColumnType) (out : Output)
    (written pending : List (List Bytes)) : Prop where
  builderTypes : out.builders.map ColumnBuilder.type = types
  builders : ∀ j b, out.builders[j]? = some b → ColumnIs P b.type j pending b.data
  batches : ∀ j t, types[j]? = some t → ColumnIs P t j written (columnValues out.batches j)
  even : ∀ columns ∈ out.batches, columns.length = types.length ∧
    ∀ c ∈ columns, ∀ c' ∈ columns, c.size = c'.size
  accumulatedRows : out.accumulatedRows = pending.length

/-- The first of rows of one width. -/
theorem length_headD {cached : List (List Bytes)} {width : ℕ} (hcached : cached ≠ [])
    (hwidth : ∀ row ∈ cached, row.length = width) : (cached.headD []).length = width := by
  obtain ⟨first, rest, rfl⟩ := List.exists_cons_of_ne_nil hcached
  exact hwidth first List.mem_cons_self

/-- The cells of a cache whose rows have one width. -/
theorem cellAt_eq {cached : List (List Bytes)} {width : ℕ} (hcached : cached ≠ [])
    (hwidth : ∀ row ∈ cached, row.length = width) {j : ℕ} (hj : j < width) (i : ℕ) :
    cellAt cached i j = (cached.getD i [])[j]? := by
  rw [cellAt, length_headD hcached hwidth]
  exact getElem?_flatten_eq hwidth hj i

/-- A cache whose rows are as wide as the header is loaded behind the rows in the builders. -/
theorem Carries.load {cached written pending : List (List Bytes)} {out out' : Output}
    (h : Carries P types out written pending) (hload : LoadedRows P cached out out')
    (hcached : cached ≠ []) (hwidth : ∀ row ∈ cached, row.length = types.length) :
    Carries P types out' written (pending ++ cached) := by
  have hfirst := length_headD hcached hwidth
  have htypes : out'.builders.map ColumnBuilder.type = types :=
    hload.builders.types.trans h.builderTypes
  refine ⟨htypes, ?_, ?_, ?_, ?_⟩
  · intro j b' hb'
    have hj : j < types.length := by
      rw [← htypes, List.length_map]
      exact (List.getElem?_eq_some_iff.mp hb').1
    have hlt : j < out.builders.length := by rwa [← h.builderTypes, List.length_map] at hj
    obtain ⟨b'', hb'', htype, vs, hdata, hcells⟩ := hload.builders.appended j
      (List.mem_range.mpr (hfirst ▸ hj)) _ (List.getElem?_eq_getElem hlt)
    obtain rfl := Option.some.inj (hb'.symm.trans hb'')
    have hold := h.builders j _ (List.getElem?_eq_getElem hlt)
    rw [← htype] at hold hcells
    rw [hdata]
    apply List.rel_append hold
    rw [← map_getD_range cached [], List.forall₂_map_left_iff]
    exact hcells.imp fun i v hcell => cellAt_eq hcached hwidth hj i ▸ hcell
  · rw [hload.batches]
    exact h.batches
  · rw [hload.batches]
    exact h.even
  · rw [hload.accumulatedRows, h.accumulatedRows, List.length_append]

/-- A builder of a column. -/
theorem Carries.exists_builder {written pending : List (List Bytes)} {out : Output}
    (h : Carries P types out written pending) {j : ℕ} {t : ColumnType} (ht : types[j]? = some t) :
    ∃ b, out.builders[j]? = some b ∧ b.type = t ∧ ColumnIs P t j pending b.data := by
  rw [← h.builderTypes, List.getElem?_map] at ht
  obtain ⟨b, hb, rfl⟩ := Option.map_eq_some_iff.mp ht
  exact ⟨b, hb, rfl, h.builders j b hb⟩

/-- The rows of a batch are those in the builders, if it has a column. -/
theorem Carries.batchRows {written pending : List (List Bytes)} {out : Output}
    (h : Carries P types out written pending) (htypes : types ≠ []) :
    ColumnarWriter.batchRows (out.builders.map ColumnBuilder.finish) = pending.length := by
  obtain ⟨t, types', rfl⟩ := List.exists_cons_of_ne_nil htypes
  obtain ⟨b, hb, -, hcells⟩ := h.exists_builder (List.getElem?_cons_zero (l := types'))
  rw [ColumnarWriter.batchRows, List.head?_map, List.head?_eq_getElem?, hb, hcells.length_eq]
  rfl

/-- A flush writes the rows in the builders. -/
theorem Carries.flush {written pending : List (List Bytes)} {out out' : Output}
    (h : Carries P types out written pending) (hflush : Flushed out out') :
    Carries P types out' (written ++ pending) [] := by
  refine ⟨?_, ?_, ?_, ?_, hflush.accumulatedRows⟩
  · rw [hflush.builders, List.map_map, ← h.builderTypes]
    rfl
  · intro j b hb
    rw [hflush.builders, List.getElem?_map] at hb
    obtain ⟨b', -, rfl⟩ := Option.map_eq_some_iff.mp hb
    exact .nil
  · intro j t ht
    have htypes : types ≠ [] := by
      rintro rfl
      exact absurd ht (by simp)
    obtain ⟨b, hb, rfl, hcells⟩ := h.exists_builder ht
    rw [hflush.batches, columnValues, List.flatMap_append, ← columnValues, h.batchRows htypes]
    apply List.rel_append (h.batches j _ ht)
    split_ifs with hpos
    · have hdata : (out.builders.map ColumnBuilder.finish)[j]?.map Column.data = some b.data := by
        rw [List.getElem?_map, hb]
        rfl
      rw [List.flatMap_singleton, hdata]
      exact hcells
    · obtain rfl : pending = [] := List.length_eq_zero_iff.mp (Nat.eq_zero_of_not_pos hpos)
      exact .nil
  · intro columns hcolumns
    rw [hflush.batches] at hcolumns
    obtain hold | hnew := List.mem_append.mp hcolumns
    · exact h.even columns hold
    · split_ifs at hnew with hpos
      · obtain rfl := List.mem_singleton.mp hnew
        have hsize : ∀ c ∈ out.builders.map ColumnBuilder.finish, c.size = pending.length := by
          intro c hc
          obtain ⟨b, hb, rfl⟩ := List.mem_map.mp hc
          obtain ⟨j, hj⟩ := List.getElem?_of_mem hb
          exact (h.builders j b hj).length_eq.symm
        refine ⟨?_, fun c hc c' hc' => (hsize c hc).trans (hsize c' hc').symm⟩
        rw [List.length_map, ← h.builderTypes, List.length_map]
      · exact absurd hnew List.not_mem_nil

/-! ## The last cache -/

/-- What a row adds to `ApproxByteSize`. -/
def rowBytes (row : List Bytes) : ℕ := row.flatten.length + row.length * 8

/-- The rows since the last full chunk, and the size of the cache that the next row goes to, after
another row. -/
def fillState (s : ℕ × ℕ) (row : List Bytes) : ℕ × ℕ :=
  if kRowsPerChunk ≤ s.1 + 1 then (0, cacheBytes [])
  else if s.2 + rowBytes row < kBytePerCache then (s.1 + 1, s.2 + rowBytes row)
  else (s.1 + 1, cacheBytes [])

/-- The size of the cache that is filled after the rows, that of an empty one if the last row
completed a cache. -/
def openBytes (rows : List (List Bytes)) : ℕ := (rows.foldl fillState (0, cacheBytes [])).2

theorem cacheBytes_append (cached : List (List Bytes)) (row : List Bytes) :
    cacheBytes (cached ++ [row]) = cacheBytes cached + rowBytes row := by
  simp only [cacheBytes, rowBytes, List.flatten_append, List.flatten_singleton, List.length_append]
  omega

/-- The first component counts the rows in chunks. -/
theorem foldl_fillState_fst (rows : List (List Bytes)) {s : ℕ × ℕ} (hs : s.1 < kRowsPerChunk) :
    (rows.foldl fillState s).1 = (s.1 + rows.length) % kRowsPerChunk := by
  induction rows generalizing s with
  | nil => exact (Nat.mod_eq_of_lt hs).symm
  | cons row rows ih =>
      rw [List.foldl_cons, List.length_cons, ← Nat.add_assoc, Nat.add_right_comm]
      by_cases hfull : kRowsPerChunk ≤ s.1 + 1
      · have hstate : fillState s row = (0, cacheBytes []) := if_pos hfull
        have hlast : s.1 + 1 = kRowsPerChunk := le_antisymm hs hfull
        rw [hstate, ih (Nat.two_pow_pos 13), hlast, Nat.add_mod_left, Nat.zero_add]
      · have hstate : (fillState s row).1 = s.1 + 1 := by
          rw [fillState, if_neg hfull]
          split_ifs
          · rfl
          · rfl
        rw [ih (hstate ▸ not_le.mp hfull), hstate]

/-- The state of the cache after a row, in the terms of the conversion. -/
def cacheState (accumulatedRows : ℕ) (cached : List (List Bytes)) : ℕ × ℕ :=
  (accumulatedRows + cached.length, cacheBytes cached)

section cacheState

variable {a : ℕ} {cached : List (List Bytes)} {row : List Bytes}

theorem fillState_of_room (h : Room a (cached ++ [row])) :
    fillState (cacheState a cached) row = cacheState a (cached ++ [row]) := by
  obtain ⟨hbytes, hrows⟩ := h
  have hlength : (cached ++ [row]).length = cached.length + 1 := List.length_append
  rw [cacheBytes_append] at hbytes
  rw [hlength] at hrows
  rw [fillState, cacheState, cacheState, if_neg (by omega), if_pos hbytes, hlength,
    cacheBytes_append, Nat.add_assoc]

theorem fillState_of_part (h : ¬ Room a (cached ++ [row]))
    (hpart : ¬ kRowsPerChunk ≤ a + (cached ++ [row]).length) :
    fillState (cacheState a cached) row = (a + (cached ++ [row]).length, cacheBytes []) := by
  have hlength : (cached ++ [row]).length = cached.length + 1 := List.length_append
  have hbytes : ¬ cacheBytes cached + rowBytes row < kBytePerCache := by
    rw [← cacheBytes_append]
    exact fun hbytes => h ⟨hbytes, not_le.mp hpart⟩
  rw [hlength, ← Nat.add_assoc] at hpart ⊢
  exact (if_neg hpart).trans (if_neg hbytes)

theorem fillState_of_full (hfull : kRowsPerChunk ≤ a + (cached ++ [row]).length) :
    fillState (cacheState a cached) row = (0, cacheBytes []) := by
  have hlength : (cached ++ [row]).length = cached.length + 1 := List.length_append
  rw [hlength] at hfull
  exact if_pos hfull

/-- A cache with rows that have fields is larger than an empty one. -/
theorem cacheBytes_ne (hcached : cached ≠ []) (hne : ∀ row ∈ cached, row ≠ []) :
    cacheBytes cached ≠ cacheBytes [] := by
  obtain ⟨first, rest, rfl⟩ := List.exists_cons_of_ne_nil hcached
  have hpos := List.length_pos_of_ne_nil (hne first List.mem_cons_self)
  simp only [cacheBytes, List.flatten_cons, List.flatten_nil, List.length_append, List.length_nil]
  omega

end cacheState

/-- **What a conversion writes**: the rows up to the last flush; the others stay in the builders. -/
theorem Converts.carries {cached rows written pending : List (List Bytes)} {out out' : Output}
    (h : Converts P cached out rows out') (hcarries : Carries P types out written pending)
    (hwidth : ∀ row ∈ cached ++ rows, row ≠ [] ∧ row.length = types.length) :
    ∃ written' pending', Carries P types out' written' pending' ∧
      written' ++ pending' = written ++ (pending ++ (cached ++ rows)) ∧
      (pending' = [] ↔ (rows.foldl fillState (cacheState pending.length cached)).1 = 0 ∨
        (rows.foldl fillState (cacheState pending.length cached)).2 ≠ cacheBytes []) := by
  induction h generalizing written pending with
  | done out =>
      refine ⟨written, pending, hcarries, by simp, ?_⟩
      simp [cacheState]
  | last hcached hload hflush =>
      rw [List.append_nil] at hwidth
      have hloaded := hcarries.load hload hcached fun row hrow => (hwidth row hrow).2
      refine ⟨_, [], hloaded.flush hflush, by simp, iff_of_true rfl (.inr ?_)⟩
      exact cacheBytes_ne hcached fun row hrow => (hwidth row hrow).1
  | @cache cached rows row out out' hroom hrest ih =>
      rw [List.append_cons] at hwidth
      obtain ⟨written', pending', hcarries', happend, hiff⟩ := ih hcarries hwidth
      rw [hcarries.accumulatedRows] at hroom
      refine ⟨written', pending', hcarries', by rw [happend, ← List.append_cons], ?_⟩
      rw [List.foldl_cons, fillState_of_room hroom]
      exact hiff
  | @load cached rows row out loaded out' hroom hload hpart hrest ih =>
      rw [List.append_cons] at hwidth
      have hloaded := hcarries.load hload (by simp) fun r hr =>
        (hwidth r (List.mem_append_left _ hr)).2
      obtain ⟨written', pending', hcarries', happend, hiff⟩ := ih hloaded fun r hr =>
        hwidth r (List.mem_append_right _ (by simpa using hr))
      rw [hload.accumulatedRows, hcarries.accumulatedRows] at hpart
      rw [hcarries.accumulatedRows] at hroom
      refine ⟨written', pending', hcarries', by rw [happend]; simp, ?_⟩
      rw [List.foldl_cons, fillState_of_part hroom hpart]
      rwa [List.length_append] at hiff
  | @flush cached rows row out loaded flushed out' hroom hload hfull hflush hrest ih =>
      rw [List.append_cons] at hwidth
      have hloaded := hcarries.load hload (by simp) fun r hr =>
        (hwidth r (List.mem_append_left _ hr)).2
      obtain ⟨written', pending', hcarries', happend, hiff⟩ := ih (hloaded.flush hflush) fun r hr =>
        hwidth r (List.mem_append_right _ (by simpa using hr))
      rw [hload.accumulatedRows, hcarries.accumulatedRows] at hfull
      refine ⟨written', pending', hcarries', by rw [happend]; simp, ?_⟩
      rw [List.foldl_cons, fillState_of_full hfull]
      exact hiff

/-! ## Rows that parse -/

/-- A row has a field for every column, and each of them parses. -/
def Parses (P : Platform) (types : List ColumnType) (row : List Bytes) : Prop :=
  List.Forall₂ (fun t field => ∃ v, t.fromString P field = .ok v) types row

section Parses

variable {n a : ℕ} {cached rows : List (List Bytes)}

theorem Parses.length_eq {row : List Bytes} (h : Parses P types row) :
    row.length = types.length := (List.Forall₂.length_eq h).symm

/-- A row as wide as those in the cache is read. -/
theorem readInto_ok {row : List Bytes} {width : ℕ} (hn : n ≠ 0 → row.length = n)
    (hrow : row.length = width) (hcached : ∀ row ∈ cached, row.length = width) :
    readInto n cached row = .ok () := by
  have hwidth : ¬ (cached ≠ [] ∧ (cached.headD []).length < row.length) := by
    rintro ⟨hne, hlt⟩
    rw [length_headD hne hcached, hrow] at hlt
    exact lt_irrefl width hlt
  have hexpected : ¬ (n ≠ 0 ∧ row.length ≠ n) := fun h => h.2 (hn h.1)
  rw [readInto, if_neg hwidth, CsvReader.checkRow, if_neg hexpected]
  rfl

/-- The cells of a cache of rows that parse. -/
theorem cells_ok (hcached : ∀ row ∈ cached, Parses P types row) :
    ∀ access ∈ cells cached, access.check P n types = .ok () := by
  intro access haccess
  obtain ⟨j, hj, haccess⟩ := List.mem_flatMap.mp haccess
  obtain ⟨i, hi, rfl⟩ := List.mem_map.mp haccess
  rw [List.mem_range] at hi hj
  have hne : cached ≠ [] := List.ne_nil_of_length_pos (Nat.zero_lt_of_lt hi)
  have hfirst := length_headD hne fun row hrow => (hcached row hrow).length_eq
  rw [hfirst] at hj
  have hcell := cellAt_eq hne (fun row hrow => (hcached row hrow).length_eq) hj i
  obtain ⟨field, hfield, v, hv⟩ :=
    getElem?_of_forall₂ (hcached _ (List.getElem_mem hi)) (List.getElem?_eq_getElem hj)
  rw [List.getD_eq_getElem _ _ hi, hfield] at hcell
  rw [Access.check, hcell, List.getElem?_eq_getElem hj]
  simp [cellCheck, Fault.ofOption, Except.bind, Except.map, hv]

/-- The lookups of a conversion of rows that parse. -/
theorem accesses_ok (hn : ∀ row ∈ rows, n ≠ 0 → row.length = n)
    (hparses : ∀ row ∈ cached ++ rows, Parses P types row) :
    ∀ access ∈ accesses a cached rows, access.check P n types = .ok () := by
  induction rows generalizing a cached with
  | nil => exact cells_ok (by simpa using hparses)
  | cons row rows ih =>
      have hrow := hparses row (List.mem_append_right _ List.mem_cons_self)
      have hread := readInto_ok (hn row List.mem_cons_self) hrow.length_eq fun r hr =>
        (hparses r (List.mem_append_left _ hr)).length_eq
      have hn' : ∀ r ∈ rows, n ≠ 0 → r.length = n := fun r hr => hn r (List.mem_cons_of_mem row hr)
      rw [List.append_cons] at hparses
      rw [accesses, List.forall_mem_cons]
      refine ⟨hread, ?_⟩
      split_ifs with hroom
      · exact ih hn' hparses
      · rw [List.forall_mem_append]
        exact ⟨cells_ok fun r hr => hparses r (List.mem_append_left _ hr),
          ih hn' fun r hr => hparses r (List.mem_append_right _ hr)⟩

/-- The rows of a cache parse if its cells do. -/
theorem parses_of_cells (hwidth : ∀ row ∈ cached, row.length = types.length)
    (hcells : ∀ access ∈ cells cached, access.check P n types = .ok ()) :
    ∀ row ∈ cached, Parses P types row := by
  intro row hrow
  obtain ⟨i, hi, rfl⟩ := List.getElem_of_mem hrow
  have hne : cached ≠ [] := List.ne_nil_of_mem hrow
  have hfirst := length_headD hne hwidth
  refine List.forall₂_iff_get.mpr ⟨(hwidth _ hrow).symm, fun j hj hj' => ?_⟩
  have hmem : Access.cell cached i j ∈ cells cached :=
    List.mem_flatMap.mpr ⟨j, List.mem_range.mpr (hfirst ▸ hj),
      List.mem_map.mpr ⟨i, List.mem_range.mpr hi, rfl⟩⟩
  obtain ⟨t, value, v, ht, hvalue, hparse⟩ := cellCheck_eq_ok (hcells _ hmem)
  rw [cellAt_eq hne hwidth hj, List.getD_eq_getElem _ _ hi, List.getElem?_eq_getElem hj'] at hvalue
  rw [List.getElem?_eq_getElem hj] at ht
  obtain rfl := Option.some.inj ht
  obtain rfl := Option.some.inj hvalue
  exact ⟨v, hparse⟩

/-- Rows of the width of the header parse if the lookups of their conversion succeed. -/
theorem parses_of_accesses (hwidth : ∀ row ∈ cached ++ rows, row.length = types.length)
    (haccesses : ∀ access ∈ accesses a cached rows, access.check P n types = .ok ()) :
    ∀ row ∈ cached ++ rows, Parses P types row := by
  induction rows generalizing a cached with
  | nil =>
      rw [List.append_nil] at hwidth ⊢
      exact parses_of_cells hwidth haccesses
  | cons row rows ih =>
      rw [List.append_cons] at hwidth ⊢
      rw [accesses, List.forall_mem_cons] at haccesses
      replace haccesses := haccesses.2
      split_ifs at haccesses with hroom
      · exact ih hwidth haccesses
      · rw [List.forall_mem_append] at haccesses hwidth ⊢
        exact ⟨parses_of_cells hwidth.1 haccesses.1, ih hwidth.2 haccesses.2⟩

end Parses

/-! ## The rows that are written -/

/-- The output before the first row. -/
theorem exists_start (P : Platform) {columnNames : List Bytes} {columnTypes : List ColumnType}
    (hnames : columnNames.length = columnTypes.length) :
    ∃ w, ColumnarWriter.new.writeHeader columnNames columnTypes = .ok w ∧
      Output.Sound columnTypes ⟨w, columnTypes.map makeColumnBuilder, 0, []⟩ ∧
      Carries P columnTypes ⟨w, columnTypes.map makeColumnBuilder, 0, []⟩ [] [] := by
  have hbuilders : (columnTypes.map makeColumnBuilder).map ColumnBuilder.type = columnTypes := by
    rw [List.map_map]
    exact List.map_id columnTypes
  obtain ⟨w, hw, hheader, hmetadata⟩ := ColumnarWriter.exists_writeHeader hnames
  refine ⟨w, hw, ⟨hbuilders, hheader, hmetadata⟩, hbuilders, ?_, fun j t _ => .nil, by simp, rfl⟩
  intro j b hb
  rw [List.getElem?_map] at hb
  obtain ⟨t, -, rfl⟩ := Option.map_eq_some_iff.mp hb
  exact .nil

/-- The conversion of rows that parse: some are written, the others stay in the builders. -/
theorem exists_writeRows {columnNames : List Bytes} {columnTypes : List ColumnType}
    (hnames : columnNames.length = columnTypes.length) {reader : CsvReader} {delim : UInt8}
    {text : Bytes} {rows : List (List Bytes)} (hreads : reader.Reads delim text)
    (hrows : RowsOf delim text rows)
    (hn : ∀ row ∈ rows, reader.expectedColumns ≠ 0 → row.length = reader.expectedColumns)
    (hparses : ∀ row ∈ rows, Parses P columnTypes row) :
    ∃ out written pending,
      writeRows P columnNames columnTypes reader (columnTypes.map makeColumnBuilder) = .ok out ∧
      Carries P columnTypes out written pending ∧ written ++ pending = rows ∧
      (pending = [] ↔ rows.length % kRowsPerChunk = 0 ∨ openBytes rows ≠ cacheBytes []) := by
  obtain ⟨w, hw, hsound, hcarries⟩ := exists_start P hnames
  have hguarded := @convertRows_guarded P reader.expectedColumns _ [] _ hsound rows
  obtain ⟨out, hout, hconverts, -⟩ := hguarded.exists_ok
    (checks_eq_ok_iff.mpr (accesses_ok hn (by simpa using hparses)))
  obtain ⟨written, pending, hcarries', happend, hiff⟩ := hconverts.carries hcarries fun row hrow =>
    ⟨hrows.ne_nil row (by simpa using hrow), (hparses row (by simpa using hrow)).length_eq⟩
  refine ⟨out, written, pending, ?_, hcarries', by simpa using happend, hiff.trans ?_⟩
  · rw [writeRows_eq P columnNames columnTypes hreads hrows, hw]
    exact hout
  · have hstart : cacheState 0 [] = (0, cacheBytes []) := rfl
    rw [List.length_nil, hstart, foldl_fillState_fst rows (Nat.two_pow_pos 13), Nat.zero_add,
      openBytes]

/-- Where the batches hold all rows, none is left in the builders. -/
theorem Carries.pending_eq_nil {written pending : List (List Bytes)} {out : Output}
    (h : Carries P types out written pending)
    (hne : ∀ row ∈ written ++ pending, row ≠ [])
    (hwidth : ∀ row ∈ written ++ pending, row.length = types.length)
    (hcolumns : ∀ j t, types[j]? = some t →
      ColumnIs P t j (written ++ pending) (columnValues out.batches j)) : pending = [] := by
  by_contra hpending
  obtain ⟨row, hrow⟩ := List.exists_mem_of_ne_nil pending hpending
  have hmem := List.mem_append_right written hrow
  have hpos : 0 < types.length := hwidth row hmem ▸ List.length_pos_of_ne_nil (hne row hmem)
  have hlength := (hcolumns 0 _ (List.getElem?_eq_getElem hpos)).length_eq
  rw [← (h.batches 0 _ (List.getElem?_eq_getElem hpos)).length_eq, List.length_append] at hlength
  exact hpending (List.length_eq_zero_iff.mp (by omega))

/-- **No row is lost** exactly when the rows fill their last chunk or the last row does not complete
a cache: then the batches hold the rows that the reader delivers, in their order, in every column.
-/
theorem written_iff (P : Platform) {columnNames : List Bytes} {columnTypes : List ColumnType}
    (hnames : columnNames.length = columnTypes.length) {reader : CsvReader}
    (hvalid : reader.tokenizer.reading.Valid) {rows : List (List Bytes)}
    (hdelivers : Delivers reader (rows.map .ok))
    (hparses : ∀ row ∈ rows, Parses P columnTypes row) :
    (∃ out,
      writeRows P columnNames columnTypes reader (columnTypes.map makeColumnBuilder) = .ok out ∧
      ∀ j t, columnTypes[j]? = some t → ColumnIs P t j rows (columnValues out.batches j)) ↔
      rows.length % kRowsPerChunk = 0 ∨ openBytes rows ≠ cacheBytes [] := by
  obtain ⟨hrows, hn⟩ := CsvReader.rowsOf_of_delivers hdelivers ⟨hvalid, rfl, rfl⟩
  obtain ⟨out, written, pending, hout, hcarries, rfl, hiff⟩ :=
    exists_writeRows hnames ⟨hvalid, rfl, rfl⟩ hrows hn hparses
  rw [← hiff]
  constructor
  · rintro ⟨out', hout', hcolumns⟩
    obtain rfl := Except.ok.inj (hout.symm.trans hout')
    exact hcarries.pending_eq_nil hrows.ne_nil (fun row hrow => (hparses row hrow).length_eq)
      hcolumns
  · rintro rfl
    rw [List.append_nil]
    exact ⟨out, hout, hcarries.batches⟩

/-- A row of one short field. -/
theorem written_short_field :
    ∃ out, writeRows Platform.integral [ascii "s"] [.string]
        ⟨.ofContent (Nat.two_pow_pos 27) (ascii "ab\n") comma, 0⟩ [makeColumnBuilder .string] =
          .ok out ∧
      ∀ j t, [ColumnType.string][j]? = some t →
        ColumnIs Platform.integral t j [[ascii "ab"]] (columnValues out.batches j) := by
  have hrows : RowsOf comma (ascii "ab\n") [[ascii "ab"]] :=
    (rowsOf_iff_of_some (by decide)).mpr ⟨[], rfl, rowsOf_nil⟩
  exact (written_iff Platform.integral rfl (CsvTokenizer.valid_ofContent _ _ _)
    (CsvReader.delivers_of_rowsOf hrows (CsvReader.reads_ofContent _ _ _ 0))
    (by simp [Parses, ColumnType.fromString])).mpr (.inr (by decide))

section LargeField

variable {field : Bytes}

theorem rowsOf_plainField (hplain : ∀ c ∈ field, PlainChar comma c) :
    RowsOf comma (renderRow comma [field]) [[field]] := by
  have hfields : ∀ f ∈ [field], ∀ c ∈ f, PlainChar comma c := by
    intro f hf c hc
    rw [List.mem_singleton.mp hf] at hc
    exact hplain c hc
  have hfirst := @firstRow_plain comma (by decide) (by decide) _ (by simp) hfields []
  rw [List.append_nil] at hfirst
  exact (rowsOf_iff_of_some hfirst).mpr ⟨[], rfl, rowsOf_nil⟩

/-- A row of one field completes a cache where the field fills it. -/
theorem openBytes_of_length (hlength : field.length = kBytePerCache) :
    openBytes [[field]] = cacheBytes [] := by
  have hlarge : ¬ cacheBytes [] + rowBytes [field] < kBytePerCache := by
    rw [rowBytes, List.flatten_singleton, hlength]
    omega
  have hpart : ¬ kRowsPerChunk ≤ 0 + 1 := by decide
  rw [openBytes, List.foldl_cons, List.foldl_nil, fillState, if_neg hpart, if_neg hlarge]

/-- A row that fills a cache is the only one of the text, and is lost. -/
theorem not_written_of_length (hplain : ∀ c ∈ field, PlainChar comma c)
    (hlength : field.length = kBytePerCache) :
    Delivers ⟨.ofContent (Nat.two_pow_pos 27) (renderRow comma [field]) comma, 0⟩ [.ok [field]] ∧
      ¬ ∃ out, writeRows Platform.integral [ascii "s"] [.string]
          ⟨.ofContent (Nat.two_pow_pos 27) (renderRow comma [field]) comma, 0⟩
          [makeColumnBuilder .string] = .ok out ∧
        ∀ j t, [ColumnType.string][j]? = some t →
          ColumnIs Platform.integral t j [[field]] (columnValues out.batches j) := by
  have hrows := rowsOf_plainField hplain
  have hreads := CsvReader.reads_ofContent (Nat.two_pow_pos 27) (renderRow comma [field]) comma 0
  have hparses : ∀ row ∈ [[field]], Parses Platform.integral [.string] row := by
    simp [Parses, ColumnType.fromString]
  refine ⟨CsvReader.delivers_of_rowsOf hrows hreads, ?_⟩
  rintro ⟨out, hout, hcolumns⟩
  obtain ⟨out', written, pending, hout', hcarries, happend, hiff⟩ :=
    @exists_writeRows _ [ascii "s"] _ rfl _ _ _ _ hreads hrows (by simp) hparses
  obtain rfl := Except.ok.inj (hout.symm.trans hout')
  rw [← happend] at hcolumns hparses
  have hpending := hcarries.pending_eq_nil (happend ▸ hrows.ne_nil)
    (fun row hrow => (hparses row hrow).length_eq) hcolumns
  have hcount : ¬ 1 % kRowsPerChunk = 0 := by decide
  obtain hfull | hbytes := hiff.mp hpending
  · exact hcount hfull
  · exact hbytes (openBytes_of_length hlength)

end LargeField

/-- A field that fills a cache. -/
def largeField : Bytes := List.replicate kBytePerCache 97

/-- The row of the large field is lost. -/
theorem not_written_largeField :
    Delivers ⟨.ofContent (Nat.two_pow_pos 27) (renderRow comma [largeField]) comma, 0⟩
        [.ok [largeField]] ∧
      ¬ ∃ out, writeRows Platform.integral [ascii "s"] [.string]
          ⟨.ofContent (Nat.two_pow_pos 27) (renderRow comma [largeField]) comma, 0⟩
          [makeColumnBuilder .string] = .ok out ∧
        ∀ j t, [ColumnType.string][j]? = some t →
          ColumnIs Platform.integral t j [[largeField]] (columnValues out.batches j) := by
  refine not_written_of_length (fun c hc => ?_) List.length_replicate
  rw [List.eq_of_mem_replicate hc]
  decide

end ColumnarEngine
