import ColumnarEngine.Io.CsvRows
import ColumnarEngine.Io.CsvToColumnar

/-!
# The conversion as a function of the rows

`convertRows` is `WriteToColumnar` without its reader and its containers: row after row goes into
the cache, a full cache into the builders, and a full chunk into the file. The code computes it of
the rows of its text, in as many turns as it is given (`writeRows_eq`).
-/

namespace ColumnarEngine

open Found

/-- `ApproxByteSize` of a container with the rows. -/
def cacheBytes (rows : List (List Bytes)) : ℕ :=
  rows.flatten.flatten.length + (rows.flatten.length + 1) * 8

/-- `GetString2D` of a container with the rows. -/
def cellAt (rows : List (List Bytes)) (i j : ℕ) : Option Bytes :=
  rows.flatten[i * (rows.headD []).length + j]?

/-- The cache takes another row. -/
def Room (accumulatedRows : ℕ) (cached : List (List Bytes)) : Prop :=
  cacheBytes cached < kBytePerCache ∧ accumulatedRows + cached.length < kRowsPerChunk

instance (accumulatedRows : ℕ) (cached : List (List Bytes)) :
    Decidable (Room accumulatedRows cached) :=
  inferInstanceAs (Decidable (_ ∧ _))

/-- Reading a row into a cache: a row longer than the first is written out of range, and a row of
another width than the expected one is refused. -/
def readInto (expectedColumns : ℕ) (cached : List (List Bytes)) (row : List Bytes) :
    Except Fault Unit :=
  if cached ≠ [] ∧ (cached.headD []).length < row.length then .error .undefined
  else ((CsvReader.checkRow expectedColumns (cached.length + 1) row).mapError Fault.exception).map
    fun _ => ()

/-- The rows of a cache are parsed into the builders. -/
def loadRows (P : Platform) (cached : List (List Bytes)) (out : Output) : Except Fault Output :=
  out.load P (cellAt cached) (cached.headD []).length cached.length cached.length

/-- The conversion of rows, with some of them in the cache. -/
def convertRows (P : Platform) (expectedColumns : ℕ) :
    List (List Bytes) → Output → List (List Bytes) → Except Fault Output
  | cached, out, [] => if cached = [] then .ok out else (loadRows P cached out).bind Output.flush
  | cached, out, row :: rows =>
      (readInto expectedColumns cached row).bind fun _ =>
        if Room out.accumulatedRows (cached ++ [row]) then
          convertRows P expectedColumns (cached ++ [row]) out rows
        else
          (loadRows P (cached ++ [row]) out).bind fun out =>
            (if kRowsPerChunk ≤ out.accumulatedRows then out.flush else .ok out).bind fun out =>
              convertRows P expectedColumns [] out rows

/-! ## Filling the cache -/

/-- What filling the cache makes of the rows: `end_flag`, the cache and the rows that are left. -/
def takeRows (expectedColumns accumulatedRows : ℕ) :
    List (List Bytes) → List (List Bytes) →
      Except Fault (Bool × List (List Bytes) × List (List Bytes))
  | cached, [] => .ok (!decide (Room accumulatedRows cached), cached, [])
  | cached, row :: rows =>
      if Room accumulatedRows cached then
        (readInto expectedColumns cached row).bind fun _ =>
          takeRows expectedColumns accumulatedRows (cached ++ [row]) rows
      else .ok (true, cached, row :: rows)

theorem takeRows_of_not_room {n a : ℕ} {cached : List (List Bytes)} (h : ¬ Room a cached)
    (rows : List (List Bytes)) : takeRows n a cached rows = .ok (true, cached, rows) := by
  cases rows with
  | nil => simp [takeRows, h]
  | cons row rows => rw [takeRows, if_neg h]

theorem room_nil {a : ℕ} (h : a < kRowsPerChunk) : Room a [] := ⟨by decide, h⟩

/-- A cache that is filled holds the rows that are taken. -/
structure Cache.Holds (cache : Cache) (delim : UInt8) (n : ℕ) (cached rows : List (List Bytes)) :
    Prop where
  reads : ∃ text, cache.reader.Reads delim text ∧ RowsOf delim text rows
  expectedColumns : cache.reader.expectedColumns = n
  columnBatch : cache.columnBatch.Holds cached []
  cacheRows : cache.cacheRows = cached.length

namespace Cache.Holds

variable {cache : Cache} {delim : UInt8} {n a : ℕ} {cached rows : List (List Bytes)}
    {row : List Bytes}

theorem approxByteSize (h : cache.Holds delim n cached rows) :
    cache.columnBatch.approxByteSize = cacheBytes cached := by
  rw [VectorOfStrings2D.approxByteSize, h.columnBatch.data, h.columnBatch.offsets,
    VectorOfStrings2D.length_offsetsOf, cacheBytes, List.append_nil]

theorem room_iff (h : cache.Holds delim n cached rows) :
    (cache.columnBatch.approxByteSize < kBytePerCache ∧ a + cache.cacheRows < kRowsPerChunk) ↔
      Room a cached := by
  rw [h.approxByteSize, h.cacheRows, Room]

/-- The container is read as its rows. -/
theorem load_eq (h : cache.Holds delim n cached rows) (hcached : cached ≠ []) (P : Platform)
    (out : Output) :
    out.load P cache.columnBatch.getString2D cache.columnBatch.width cache.columnBatch.height
      cache.cacheRows = loadRows P cached out := by
  have hwidth : cache.columnBatch.width = (cached.headD []).length := by
    rw [VectorOfStrings2D.width, if_neg (h.columnBatch.lines_ne_one hcached),
      h.columnBatch.columns hcached]
  have hline : cache.columnBatch.columnsInLine = 0 := h.columnBatch.columnsInLine
  have hheight : cache.columnBatch.height = cached.length := by
    rw [VectorOfStrings2D.height, if_pos hline, h.columnBatch.lines, Nat.add_sub_cancel]
  have hcell : cache.columnBatch.getString2D = cellAt cached := by
    funext i j
    rw [VectorOfStrings2D.getString2D, h.columnBatch.getString_eq, hwidth, List.append_nil, cellAt]
  rw [loadRows, hwidth, hheight, hcell, h.cacheRows]

/-- There is no row left. -/
theorem fillStep_nil (h : cache.Holds delim n cached []) (hroom : Room a cached) :
    ∃ cache', fillStep a cache = some (.leave (.ok (false, cache'))) ∧
      cache'.Holds delim n cached [] := by
  obtain ⟨text, hreads, hrows⟩ := h.reads
  cases hrows with
  | done hfirst =>
      have hfields : (firstRow delim text).1 = [] := congrArg Prod.fst hfirst
      obtain ⟨reader, r, hread, hcolumns, hreads', hholds⟩ :=
        CsvReader.readRow_holds hreads h.columnBatch fun _ => by rw [hfields]; exact Nat.zero_le _
      rw [CsvReader.callResult_eq_false.mpr hfields] at hread
      refine ⟨⟨reader, r, cache.cacheRows⟩, ?_, ?_⟩
      · rw [fillStep, if_pos (h.room_iff.mpr hroom), hread]
        rfl
      · rw [hfirst] at hreads' hholds
        exact ⟨⟨[], hreads', rowsOf_nil⟩, hcolumns.trans h.expectedColumns, hholds, h.cacheRows⟩

/-- One turn takes the next row. -/
theorem fillStep_cons (h : cache.Holds delim n cached (row :: rows)) (hroom : Room a cached) :
    (readInto n cached row = .error .undefined ∧ fillStep a cache = none) ∨
    (∃ text, readInto n cached row = .error (.exception text) ∧
      fillStep a cache = some (.leave (.error text))) ∨
    (∃ cache', readInto n cached row = .ok () ∧ fillStep a cache = some (.again cache') ∧
      cache'.Holds delim n (cached ++ [row]) rows) := by
  obtain ⟨text, hreads, hrows⟩ := h.reads
  cases hrows with
  | row hne hrest =>
      have hroom' := h.room_iff.mpr hroom
      by_cases hlong : cached ≠ [] ∧ (cached.headD []).length < (firstRow delim text).1.length
      · left
        refine ⟨if_pos hlong, ?_⟩
        rw [fillStep, if_pos hroom',
          CsvReader.readRow_eq_none hreads h.columnBatch hlong.1 hlong.2, Option.map_none]
      right
      obtain ⟨reader, r, hread, hcolumns, hreads', hholds⟩ :=
        CsvReader.readRow_holds hreads h.columnBatch fun hcached =>
          not_lt.mp fun hlt => hlong ⟨hcached, hlt⟩
      rw [readInto, if_neg hlong]
      rw [h.expectedColumns] at hread hcolumns
      obtain hcheck | ⟨error, hcheck⟩ :=
        CsvReader.checkRow_cases n (cached.length + 1) (firstRow delim text).1
      · right
        rw [CsvReader.callResult_eq_true.mpr ⟨hne, hcheck⟩] at hread
        refine ⟨⟨reader, r.startNewLine, cache.cacheRows + 1⟩, by rw [hcheck]; rfl, ?_,
          ⟨_, hreads', hrest⟩, hcolumns, hholds.startNewLine, ?_⟩
        · rw [fillStep, if_pos hroom', hread]
          rfl
        · rw [h.cacheRows, List.length_append, List.length_singleton]
      · left
        rw [CsvReader.callResult_eq_error.mpr ⟨hne, hcheck⟩] at hread
        refine ⟨error, by rw [hcheck]; rfl, ?_⟩
        rw [fillStep, if_pos hroom', hread]
        rfl

end Cache.Holds

/-- The code and its rows fill the cache alike. -/
inductive Filled (delim : UInt8) (n : ℕ) : Except Fault (Bool × Cache) →
    Except Fault (Bool × List (List Bytes) × List (List Bytes)) → Prop
  | fault (fault : Fault) : Filled delim n (.error fault) (.error fault)
  | cache {endFlag : Bool} {cache : Cache} {cached rows : List (List Bytes)}
      (h : cache.Holds delim n cached rows) :
      Filled delim n (.ok (endFlag, cache)) (.ok (endFlag, cached, rows))

/-- A cache without room is left at once. -/
theorem Filled.of_not_room {cache : Cache} {delim : UInt8} {n a k : ℕ}
    {cached rows : List (List Bytes)} (h : cache.Holds delim n cached rows)
    (hroom : ¬ Room a cached) :
    Filled delim n (Fault.ofCall ((turns (fillStep a) (k + 1) cache).bind Turn.result))
      (takeRows n a cached rows) := by
  have hstep : fillStep a cache = some (.leave (.ok (true, cache))) :=
    if_neg fun hcache => hroom (h.room_iff.mp hcache)
  rw [turns, hstep, takeRows_of_not_room hroom]
  exact .cache h

/-- **Filling the cache** takes the rows that `takeRows` takes. -/
theorem filled_turns {cache : Cache} {delim : UInt8} {n a k : ℕ} {cached rows : List (List Bytes)}
    (h : cache.Holds delim n cached rows) (ha : a + cached.length ≤ kRowsPerChunk)
    (hk : kRowsPerChunk < k + (a + cached.length)) :
    Filled delim n (Fault.ofCall ((turns (fillStep a) k cache).bind Turn.result))
      (takeRows n a cached rows) := by
  induction rows generalizing cache cached k with
  | nil =>
      obtain ⟨k, rfl⟩ := Nat.exists_eq_succ_of_ne_zero (show k ≠ 0 by omega)
      by_cases hroom : Room a cached
      · obtain ⟨cache', hstep, hholds⟩ := h.fillStep_nil hroom
        rw [turns, hstep, takeRows, decide_eq_true hroom]
        exact .cache hholds
      · exact .of_not_room h hroom
  | cons row rows ih =>
      obtain ⟨k, rfl⟩ := Nat.exists_eq_succ_of_ne_zero (show k ≠ 0 by omega)
      by_cases hroom : Room a cached
      · rw [turns, takeRows, if_pos hroom]
        obtain ⟨hread, hstep⟩ | ⟨text, hread, hstep⟩ | ⟨cache', hread, hstep, hholds⟩ :=
          h.fillStep_cons hroom
        · rw [hstep, hread]
          exact .fault .undefined
        · rw [hstep, hread]
          exact .fault (.exception text)
        · have hlength : (cached ++ [row]).length = cached.length + 1 := List.length_append
          have hroom' := hroom.2
          rw [hstep, hread]
          exact ih hholds (by omega) (by omega)
      · exact .of_not_room h hroom

/-! ## The chunks -/

theorem takeRows_length {n a : ℕ} {cached rows cached' rows' : List (List Bytes)} {endFlag : Bool}
    (h : takeRows n a cached rows = .ok (endFlag, cached', rows')) :
    cached'.length + rows'.length = cached.length + rows.length := by
  induction rows generalizing cached with
  | nil =>
      obtain ⟨-, rfl, rfl⟩ : _ ∧ cached = cached' ∧ [] = rows' := by simpa [takeRows] using h
      rfl
  | cons row rows ih =>
      rw [takeRows] at h
      split_ifs at h with hroom
      · cases hread : readInto n cached row with
        | error fault => rw [hread] at h; exact absurd h (by simp [Except.bind])
        | ok _ =>
            rw [hread] at h
            have hlength := ih h
            rw [List.length_append, List.length_singleton] at hlength
            rw [hlength, List.length_cons]
            omega
      · obtain ⟨-, rfl, rfl⟩ : _ ∧ cached = cached' ∧ row :: rows = rows' := by simpa using h
        rfl

/-- One turn of the outer loop with its cache, and the turns after it. -/
def chunkRows (P : Platform) (n : ℕ) (out : Output) (endFlag : Bool)
    (cached rows : List (List Bytes)) : Except Fault Output :=
  if cached = [] then .ok out
  else
    (loadRows P cached out).bind fun out =>
      (if kRowsPerChunk ≤ out.accumulatedRows ∨ ¬ endFlag then out.flush
      else .ok out).bind fun out =>
        if endFlag then convertRows P n [] out rows else .ok out

/-- The conversion of rows goes cache by cache. -/
theorem convertRows_eq (P : Platform) (n : ℕ) (out : Output) {cached : List (List Bytes)}
    (hroom : Room out.accumulatedRows cached) (rows : List (List Bytes)) :
    convertRows P n cached out rows =
      (takeRows n out.accumulatedRows cached rows).bind fun taken =>
        chunkRows P n out taken.1 taken.2.1 taken.2.2 := by
  induction rows generalizing cached with
  | nil =>
      have hend : ∀ out : Output, (if kRowsPerChunk ≤ out.accumulatedRows ∨ ¬ false then out.flush
          else .ok out).bind (fun out => if false then convertRows P n [] out [] else .ok out) =
            out.flush := by
        intro out
        rw [if_pos (.inr Bool.false_ne_true)]
        cases out.flush <;> rfl
      rw [convertRows, takeRows, decide_eq_true hroom]
      apply ite_congr rfl (fun _ => rfl)
      intro _
      exact congrArg (Except.bind _) (funext fun out => (hend out).symm)
  | cons row rows ih =>
      rw [convertRows, takeRows, if_pos hroom]
      cases readInto n cached row with
      | error fault => rfl
      | ok _ =>
          simp only [Except.bind]
          by_cases hroom' : Room out.accumulatedRows (cached ++ [row])
          · rw [if_pos hroom', ih hroom']
            rfl
          · rw [if_neg hroom', takeRows_of_not_room hroom']
            simp [chunkRows, Except.bind]

theorem flush_accumulatedRows {out out' : Output} (h : out.flush = .ok out') :
    out'.accumulatedRows = 0 := by
  rw [Output.flush] at h
  dsimp only at h
  split_ifs at h
  · cases hwrite : out.writer.writeBatch (out.builders.map ColumnBuilder.finish) with
    | error fault => rw [hwrite] at h; exact absurd h (by simp [Except.map])
    | ok writer =>
        rw [hwrite] at h
        obtain rfl := Except.ok.inj h
        rfl
  · obtain rfl := Except.ok.inj h
    rfl

/-- **The outer loop** converts the rows of the text. -/
theorem chunks_eq (P : Platform) {reader : CsvReader} {delim : UInt8} {text : Bytes}
    {rows : List (List Bytes)} {out : Output} {k : ℕ} (hreads : reader.Reads delim text)
    (hrows : RowsOf delim text rows) (hroom : out.accumulatedRows < kRowsPerChunk)
    (hk : rows.length < k) :
    chunks P k reader out = convertRows P reader.expectedColumns [] out rows := by
  induction k generalizing reader text rows out with
  | zero => exact absurd hk (Nat.not_lt_zero _)
  | succ k ih =>
      have hholds : Cache.Holds ⟨reader, .empty, 0⟩ delim reader.expectedColumns [] rows :=
        ⟨⟨text, hreads, hrows⟩, rfl, VectorOfStrings2D.holds_empty, rfl⟩
      have hfilled := filled_turns (a := out.accumulatedRows) (k := kRowsPerChunk + 1) hholds
        hroom.le (by omega)
      rw [convertRows_eq P _ out (room_nil hroom), chunks, chunkStep, fillCache]
      cases htake : takeRows reader.expectedColumns out.accumulatedRows [] rows with
      | error fault =>
          rw [htake] at hfilled
          generalize Fault.ofCall _ = filled at hfilled ⊢
          cases hfilled
          rfl
      | ok taken =>
          obtain ⟨endFlag, cached, rest⟩ := taken
          have hlength := takeRows_length htake
          rw [htake] at hfilled
          generalize Fault.ofCall _ = filled at hfilled ⊢
          cases hfilled with
          | @cache _ cache _ _ hcache =>
              simp only [Except.bind, bind, pure, Except.pure, hcache.cacheRows,
                List.length_eq_zero_iff, chunkRows]
              by_cases hcached : cached = []
              · rw [if_pos hcached, if_pos hcached]
              rw [if_neg hcached, if_neg hcached]
              have hload := hcache.load_eq hcached P out
              have hpos := List.length_pos_of_ne_nil hcached
              obtain ⟨text', hreads', hrest⟩ := hcache.reads
              rw [hcache.cacheRows] at hload
              rw [List.length_nil, Nat.zero_add] at hlength
              rw [hload]
              cases loadRows P cached out with
              | error fault => rfl
              | ok out₁ =>
                  dsimp only
                  by_cases hfull : kRowsPerChunk ≤ out₁.accumulatedRows ∨ ¬ endFlag = true
                  · rw [if_pos hfull, if_pos hfull]
                    cases hflush : out₁.flush with
                    | error fault => rfl
                    | ok out₂ =>
                        cases endFlag with
                        | false => rfl
                        | true =>
                            have hzero := flush_accumulatedRows hflush
                            rw [← hcache.expectedColumns]
                            exact ih hreads' hrest (hzero ▸ by decide) (by omega)
                  · rw [if_neg hfull, if_neg hfull]
                    rw [not_or, not_not, not_le] at hfull
                    obtain ⟨hlt, rfl⟩ := hfull
                    rw [← hcache.expectedColumns]
                    exact ih hreads' hrest hlt (by omega)

/-- **`WriteToColumnar`** converts the rows of its text. -/
theorem writeRows_eq (P : Platform) (columnNames : List Bytes) (columnTypes : List ColumnType)
    {reader : CsvReader} {delim : UInt8} {text : Bytes} {rows : List (List Bytes)}
    (hreads : reader.Reads delim text) (hrows : RowsOf delim text rows)
    (builders : List ColumnBuilder) :
    writeRows P columnNames columnTypes reader builders =
      (ColumnarWriter.new.writeHeader columnNames columnTypes).bind fun writer =>
        convertRows P reader.expectedColumns [] ⟨writer, builders, 0, []⟩ rows := by
  rw [writeRows]
  refine congrArg (Except.bind _) (funext fun writer => ?_)
  apply chunks_eq P hreads hrows (Nat.two_pow_pos 13)
  rw [hreads.unread]
  exact Nat.lt_succ_of_le (Nat.le_succ_of_le hrows.length_le)

end ColumnarEngine
