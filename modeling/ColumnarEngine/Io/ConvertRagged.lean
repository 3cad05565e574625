import ColumnarEngine.Io.ConvertLoss

/-!
# Rows of another width than the header

`Filling` is where the loops of `WriteToColumnar` come to. A row whose width is not that of the
header makes `ReadRow` throw, and the exception ends the turn before a cell of the cache is looked
up; but a row that is longer than the first one of its cache is written out of range before its
width is looked at. That no call does so is decided by where the first longer row falls in its
cache, and by whether an exception ends the loops before it is read (`rejectsRagged_iff`).

A parse that is undefined throws nothing, so it does not end the loops.
-/

namespace ColumnarEngine

open Found

variable {P : Platform} {types : List ColumnType}

/-! ## Where the loops are -/

/-- Where `WriteToColumnar` comes to from the start of its loop: a turn of it, given by the reader
and the output before the turn, and the cache of this turn at the condition of the loop that fills
it. -/
inductive Filling (P : Platform) (start : CsvReader × Output) : CsvReader × Output → Cache → Prop
  | start : Filling P start start ⟨start.1, .empty, 0⟩
  | row {turn : CsvReader × Output} {cache cache' : Cache} (h : Filling P start turn cache)
      (hstep : fillStep turn.2.accumulatedRows cache = some (.again cache')) :
      Filling P start turn cache'
  | turn {turn turn' : CsvReader × Output} {cache : Cache} (h : Filling P start turn cache)
      (hfull : fillStep turn.2.accumulatedRows cache = some (.leave (.ok (true, cache))))
      (hstep : chunkStep P turn.1 turn.2 = .ok (.again turn')) :
      Filling P start turn' ⟨turn'.1, .empty, 0⟩
  /-- After an undefined parse the loops go on, whatever it has left in the columns. -/
  | goOn {turn : CsvReader × Output} {cache : Cache} {out : Output} (h : Filling P start turn cache)
      (hfull : fillStep turn.2.accumulatedRows cache = some (.leave (.ok (true, cache))))
      (hstep : chunkStep P turn.1 turn.2 = .error .undefined)
      (hsound : ∀ types, turn.2.Sound types → out.Sound types)
      (hrows : out.accumulatedRows =
        if kRowsPerChunk ≤ turn.2.accumulatedRows + cache.cacheRows then 0
        else turn.2.accumulatedRows + cache.cacheRows) :
      Filling P start (cache.reader, out) ⟨cache.reader, .empty, 0⟩

/-- The call of `ReadRow` at a cache is defined, and a row of another width than `n` makes it throw,
which ends the turn. -/
def CallRejects (P : Platform) (n : ℕ) (turn : CsvReader × Output) (cache : Cache) : Prop :=
  ∃ result reader batch, cache.reader.readRow cache.columnBatch = some (result, reader, batch) ∧
    (batch.columnsInLine ≠ n →
      result = .ok false ∧ batch.columnsInLine = 0 ∨
      result = .error (widthMismatch n batch.columnsInLine batch.height) ∧
        chunkStep P turn.1 turn.2 =
          .error (.exception (widthMismatch n batch.columnsInLine batch.height)))

/-- Every call of `ReadRow` in the loops of `WriteToColumnar` behaves so, for a reader that has read
the header. -/
def RejectsRagged (P : Platform) (columns : List (Bytes × ColumnType)) (reader : CsvReader) :
    Prop :=
  ∀ writer,
    ColumnarWriter.new.writeHeader (columns.map Prod.fst) (columns.map Prod.snd) = .ok writer →
    ∀ turn cache,
      Filling P (reader, ⟨writer, (columns.map Prod.snd).map makeColumnBuilder, 0, []⟩) turn cache →
      cache.columnBatch.approxByteSize < kBytePerCache ∧
        turn.2.accumulatedRows + cache.cacheRows < kRowsPerChunk →
      CallRejects P columns.length turn cache

/-! ## Rows and caches -/

section Room

variable {a : ℕ} {cached more : List (List Bytes)} {row : List Bytes}

theorem Room.of_append (h : Room a (cached ++ more)) : Room a cached := by
  obtain ⟨hbytes, hrows⟩ := h
  simp only [cacheBytes, List.flatten_append, List.length_append] at hbytes hrows
  refine ⟨?_, by omega⟩
  rw [cacheBytes]
  omega

/-- Rows that leave room are those of the cache. -/
theorem foldl_fillState_of_room (h : Room a cached) :
    cached.foldl fillState (cacheState a []) = cacheState a cached := by
  induction cached using List.reverseRecOn with
  | nil => rfl
  | append_singleton cached row ih =>
      rw [List.foldl_append, ih h.of_append]
      exact fillState_of_room h

/-- Rows that fill a cache leave an empty one. -/
theorem foldl_fillState_of_not_room (hroom : Room a cached) (hfull : ¬ Room a (cached ++ [row])) :
    (cached ++ [row]).foldl fillState (cacheState a []) =
      cacheState (if kRowsPerChunk ≤ a + (cached ++ [row]).length then 0
        else a + (cached ++ [row]).length) [] := by
  rw [List.foldl_append, foldl_fillState_of_room hroom, List.foldl_cons, List.foldl_nil]
  split_ifs with hchunk
  · exact fillState_of_full hchunk
  · exact fillState_of_part hfull hchunk

end Room

/-- The caches that the rows fill, with some rows in the first one already. -/
def fullCaches : ℕ → List (List Bytes) → List (List Bytes) → List (List (List Bytes))
  | _, _, [] => []
  | accumulatedRows, cached, row :: rows =>
      if Room accumulatedRows (cached ++ [row]) then
        fullCaches accumulatedRows (cached ++ [row]) rows
      else
        let accumulatedRows := accumulatedRows + (cached ++ [row]).length
        (cached ++ [row]) ::
          fullCaches (if kRowsPerChunk ≤ accumulatedRows then 0 else accumulatedRows) [] rows

section fullCaches

variable {a : ℕ} {cached more rest : List (List Bytes)}

/-- Rows that leave room are those of the cache. -/
theorem fullCaches_append (h : Room a (cached ++ more)) :
    fullCaches a cached (more ++ rest) = fullCaches a (cached ++ more) rest := by
  induction more generalizing cached with
  | nil => rw [List.nil_append, List.append_nil]
  | cons row more ih =>
      have hassoc : cached ++ row :: more = (cached ++ [row]) ++ more := by simp
      rw [hassoc] at h ⊢
      rw [List.cons_append, fullCaches, if_pos h.of_append]
      exact ih h

/-- Rows that leave room fill no cache. -/
theorem fullCaches_eq_nil (h : Room a more) : fullCaches a [] more = [] := by
  rw [← List.append_nil more, fullCaches_append h]
  rfl

/-- More rows fill more caches. -/
theorem mem_fullCaches_append {full : List (List Bytes)} {rows : List (List Bytes)}
    (h : full ∈ fullCaches a cached rows) : full ∈ fullCaches a cached (rows ++ rest) := by
  induction rows generalizing a cached with
  | nil => cases h
  | cons row rows ih =>
      rw [fullCaches] at h
      rw [List.cons_append, fullCaches]
      split_ifs at h ⊢ with hroom
      · exact ih h
      · rcases List.mem_cons.mp h with rfl | h
        · exact List.mem_cons_self
        · exact List.mem_cons_of_mem _ (ih h)

/-- A cache that is filled comes first. -/
theorem fullCaches_cons {row : List Bytes} (hroom : Room a cached)
    (hfull : ¬ Room a (cached ++ [row])) :
    fullCaches a [] (cached ++ [row] ++ rest) = (cached ++ [row]) ::
      fullCaches (if kRowsPerChunk ≤ a + (cached ++ [row]).length then 0
        else a + (cached ++ [row]).length) [] rest := by
  rw [List.append_assoc, fullCaches_append hroom, List.nil_append, List.singleton_append, fullCaches,
    if_neg hfull]

end fullCaches

/-- The first cell of the cache, column by column, that does not parse is refused by an exception.
-/
def CacheRefused (P : Platform) (types : List ColumnType) (cached : List (List Bytes)) : Prop :=
  ∃ text, checks (Access.check P types.length types) (cells cached) = .error (.exception text)

/-! ## Reading a row -/

/-- What reading a row into a cache says of its width. -/
theorem readInto_eq_ok {n : ℕ} {cached : List (List Bytes)} {row : List Bytes}
    (h : readInto n cached row = .ok ()) (hn : n ≠ 0) : row.length = n := by
  rw [readInto] at h
  split_ifs at h with hlong
  by_contra hwidth
  rw [CsvReader.checkRow, if_pos ⟨hn, hwidth⟩] at h
  exact absurd h (by simp [Except.mapError, Except.map])

namespace Cache.Holds

variable {cache : Cache} {delim : UInt8} {n : ℕ} {cached rows : List (List Bytes)}

/-- A call of `ReadRow` adds the next row, if it fits below the first one, and checks its width. -/
theorem readRow (h : cache.Holds delim n cached rows)
    (hfits : cached ≠ [] → (rows.headD []).length ≤ (cached.headD []).length) :
    ∃ reader batch, cache.reader.readRow cache.columnBatch =
        some (CsvReader.callResult n (cached.length + 1) (rows.headD []), reader, batch) ∧
      batch.columnsInLine = (rows.headD []).length ∧
      (rows ≠ [] → batch.height = cached.length + 1) := by
  obtain ⟨text, hreads, hrows⟩ := h.reads
  have hfirst := hrows.firstRow_fields
  rw [← hfirst] at hfits ⊢
  obtain ⟨reader, batch, hread, -, -, hholds⟩ := CsvReader.readRow_holds hreads h.columnBatch hfits
  rw [h.expectedColumns] at hread
  refine ⟨reader, batch, hread, hholds.columnsInLine, ?_⟩
  intro hne
  have hcount : batch.columnsInLine ≠ 0 := by
    obtain ⟨row, rest, rfl⟩ := List.exists_cons_of_ne_nil hne
    rw [hholds.columnsInLine, hfirst]
    exact fun hzero => hrows.ne_nil row List.mem_cons_self (List.length_eq_zero_iff.mp hzero)
  rw [VectorOfStrings2D.height, if_neg hcount, hholds.lines]

/-- A row longer than the first one of its cache is written out of range. -/
theorem readRow_eq_none (h : cache.Holds delim n cached rows) (hcached : cached ≠ [])
    (hlong : (cached.headD []).length < (rows.headD []).length) :
    cache.reader.readRow cache.columnBatch = none := by
  obtain ⟨text, hreads, hrows⟩ := h.reads
  exact CsvReader.readRow_eq_none hreads h.columnBatch hcached (hrows.firstRow_fields ▸ hlong)

end Cache.Holds

/-! ## Loading a full cache -/

section Turn

variable {reader : CsvReader} {out : Output} {cache : Cache} {delim : UInt8} {n : ℕ}
  {cached rows : List (List Bytes)}

/-- A full cache is loaded, and the chunk is written if it is complete. -/
theorem chunkStep_full (hfill : fillCache out.accumulatedRows reader = .ok (true, cache))
    (h : cache.Holds delim n cached rows) (hcached : cached ≠ []) :
    chunkStep P reader out = (loadRows P cached out).bind fun out =>
      (if kRowsPerChunk ≤ out.accumulatedRows then out.flush else .ok out).bind fun out =>
        .ok (.again (cache.reader, out)) := by
  have hrows : cache.cacheRows ≠ 0 := by
    rw [h.cacheRows]
    exact fun hzero => hcached (List.length_eq_zero_iff.mp hzero)
  have hload := h.load_eq hcached P out
  rw [chunkStep, hfill]
  simp only [bind, Except.bind, if_neg hrows, hload]
  cases loadRows P cached out with
  | error fault => rfl
  | ok out =>
      simp only [not_true_eq_false, or_false, if_true, pure, Except.pure]
      by_cases hchunk : kRowsPerChunk ≤ out.accumulatedRows
      · rw [if_pos hchunk, if_pos hchunk]
      · rw [if_neg hchunk, if_neg hchunk]

/-- **The turn of a full cache** fails as the first of its cells that fails, and only so. -/
theorem chunkStep_guarded (hsound : out.Sound types)
    (hfill : fillCache out.accumulatedRows reader = .ok (true, cache))
    (h : cache.Holds delim n cached rows) (hcached : cached ≠ []) :
    Guarded (fun turn => ∃ out', turn = .again (cache.reader, out') ∧ out'.Sound types ∧
        out'.accumulatedRows = if kRowsPerChunk ≤ out.accumulatedRows + cached.length then 0
          else out.accumulatedRows + cached.length)
      (checks (Access.check P n types) (cells cached)) (chunkStep P reader out) := by
  rw [chunkStep_full hfill h hcached]
  apply (loadRows_guarded hsound hcached).bind_ok
  intro loaded hload
  rw [← hload.accumulatedRows]
  by_cases hchunk : kRowsPerChunk ≤ loaded.accumulatedRows
  · obtain ⟨flushed, hflushed, hflush, hsound'⟩ := exists_flush (hload.sound hsound)
    rw [if_pos hchunk, if_pos hchunk, hflushed]
    exact ⟨_, rfl, flushed, rfl, hsound', hflush.accumulatedRows⟩
  · rw [if_neg hchunk, if_neg hchunk]
    exact ⟨_, rfl, loaded, rfl, hload.sound hsound, rfl⟩

end Turn

/-! ## Where the loops come to -/

/-- The loops have come to a cache: some rows are loaded, from caches that were not refused, others
are in the cache, and before the last of these it was not full. -/
structure Progress (P : Platform) (types : List ColumnType) (delim : UInt8)
    (turn : CsvReader × Output) (cache : Cache) (loaded cached rest : List (List Bytes)) :
    Prop where
  sound : turn.2.Sound types
  accumulatedRows : turn.2.accumulatedRows < kRowsPerChunk
  state : loaded.foldl fillState (cacheState 0 []) = cacheState turn.2.accumulatedRows []
  caches : ∀ more, fullCaches 0 [] (loaded ++ more) =
    fullCaches 0 [] loaded ++ fullCaches turn.2.accumulatedRows [] more
  passes : ∀ full ∈ fullCaches 0 [] loaded, ¬ CacheRefused P types full
  holds : cache.Holds delim types.length cached rest
  width : ∀ row ∈ loaded ++ cached, row.length = types.length
  room : Room turn.2.accumulatedRows cached.dropLast
  fills : turns (fillStep turn.2.accumulatedRows) cached.length ⟨turn.1, .empty, 0⟩ =
    some (.again cache)

namespace Progress

variable {delim : UInt8} {turn : CsvReader × Output} {cache : Cache}
  {loaded cached rest : List (List Bytes)}

/-- Nothing is loaded where the loops start. -/
theorem of_start (hsound : turn.2.Sound types) (hrows : turn.2.accumulatedRows = 0)
    (hholds : Cache.Holds ⟨turn.1, .empty, 0⟩ delim types.length [] rest) :
    Progress P types delim turn ⟨turn.1, .empty, 0⟩ [] [] rest where
  sound := hsound
  accumulatedRows := hrows ▸ Nat.two_pow_pos 13
  state := by rw [hrows]; rfl
  caches := by intro more; rw [hrows]; rfl
  passes := by simp [fullCaches]
  holds := hholds
  width := by simp
  room := room_nil (hrows ▸ Nat.two_pow_pos 13)
  fills := rfl

theorem cachedWidth (h : Progress P types delim turn cache loaded cached rest) :
    ∀ row ∈ cached, row.length = types.length :=
  fun row hrow => h.width row (List.mem_append_right _ hrow)

/-- The next row is read into the cache. -/
theorem nextRow (h : Progress P types delim turn cache loaded cached rest)
    (hroom : Room turn.2.accumulatedRows cached) {row : List Bytes} {rest' : List (List Bytes)}
    {cache' : Cache}
    (hstep : fillStep turn.2.accumulatedRows cache = some (.again cache'))
    (hwidth : row.length = types.length)
    (hholds : cache'.Holds delim types.length (cached ++ [row]) rest') :
    Progress P types delim turn cache' loaded (cached ++ [row]) rest' where
  sound := h.sound
  accumulatedRows := h.accumulatedRows
  state := h.state
  caches := h.caches
  passes := h.passes
  holds := hholds
  width := by
    rw [← List.append_assoc, List.forall_mem_append, List.forall_mem_singleton]
    exact ⟨h.width, hwidth⟩
  room := by rwa [List.dropLast_concat]
  fills := by
    rw [List.length_append, List.length_singleton, turns_add h.fills, turns, hstep]
    rfl

/-- The result with which the loop that fills the cache is left. -/
theorem fillCache_eq (h : Progress P types delim turn cache loaded cached rest)
    {result : Except Bytes (Bool × Cache)}
    (hleave : fillStep turn.2.accumulatedRows cache = some (.leave result)) :
    fillCache turn.2.accumulatedRows turn.1 = result.mapError Fault.exception := by
  have hlength : cached.length < kRowsPerChunk + 1 := by
    have hroom := h.room.2
    rw [List.length_dropLast] at hroom
    omega
  rw [fillCache, turns_of_leave h.fills hleave hlength]
  rfl

/-- The loop that fills a full cache is left with it. -/
theorem fillStep_full (h : Progress P types delim turn cache loaded cached rest)
    (hfull : ¬ Room turn.2.accumulatedRows cached) :
    fillStep turn.2.accumulatedRows cache = some (.leave (.ok (true, cache))) :=
  if_neg fun hcache => hfull (h.holds.room_iff.mp hcache)

/-- The loop that fills the cache goes on with the next row. -/
theorem of_again (h : Progress P types delim turn cache loaded cached rest)
    (htypes : types.length = 0 → rest = []) {cache' : Cache}
    (hstep : fillStep turn.2.accumulatedRows cache = some (.again cache')) :
    ∃ row rest', rest = row :: rest' ∧
      Progress P types delim turn cache' loaded (cached ++ [row]) rest' := by
  have hroom : Room turn.2.accumulatedRows cached := by
    by_contra hfull
    exact absurd (hstep.symm.trans (h.fillStep_full hfull)) (by simp)
  cases rest with
  | nil =>
      obtain ⟨_, hleave, -⟩ := h.holds.fillStep_nil hroom
      exact absurd (hstep.symm.trans hleave) (by simp)
  | cons row rest =>
      obtain ⟨-, hnone⟩ | ⟨_, -, hleave⟩ | ⟨cache₁, hread, hstep₁, hholds⟩ :=
        h.holds.fillStep_cons hroom
      · exact absurd (hstep.symm.trans hnone) (by simp)
      · exact absurd (hstep.symm.trans hleave) (by simp)
      · obtain rfl : cache' = cache₁ := by simpa using hstep.symm.trans hstep₁
        have hwidth := readInto_eq_ok hread fun hzero => List.cons_ne_nil _ _ (htypes hzero)
        exact ⟨row, rest, rfl, h.nextRow hroom hstep hwidth hholds⟩

/-- The loop that fills the cache is left with `end_flag` where the cache is full. -/
theorem not_room_of_leave (h : Progress P types delim turn cache loaded cached rest)
    (hleave : fillStep turn.2.accumulatedRows cache = some (.leave (.ok (true, cache)))) :
    ¬ Room turn.2.accumulatedRows cached := by
  intro hroom
  cases rest with
  | nil =>
      obtain ⟨_, hleave', -⟩ := h.holds.fillStep_nil hroom
      exact absurd (hleave.symm.trans hleave') (by simp)
  | cons row rest =>
      obtain ⟨-, hstep⟩ | ⟨_, -, hstep⟩ | ⟨_, -, hstep, -⟩ := h.holds.fillStep_cons hroom
      · exact absurd (hleave.symm.trans hstep) (by simp)
      · exact absurd (hleave.symm.trans hstep) (by simp)
      · exact absurd (hleave.symm.trans hstep) (by simp)

/-- The last row of a full cache filled it. -/
theorem exists_last (h : Progress P types delim turn cache loaded cached rest)
    (hfull : ¬ Room turn.2.accumulatedRows cached) :
    ∃ shorter row, cached = shorter ++ [row] ∧ Room turn.2.accumulatedRows shorter := by
  obtain rfl | ⟨shorter, row, rfl⟩ := List.eq_nil_or_concat' cached
  · exact absurd (room_nil h.accumulatedRows) hfull
  · have hroom := h.room
    rw [List.dropLast_concat] at hroom
    exact ⟨shorter, row, rfl, hroom⟩

/-- The turn of a full cache looks its cells up. -/
theorem turn_guarded (h : Progress P types delim turn cache loaded cached rest)
    (hfull : ¬ Room turn.2.accumulatedRows cached) :
    Guarded (fun t => ∃ out', t = .again (cache.reader, out') ∧ out'.Sound types ∧
        out'.accumulatedRows = if kRowsPerChunk ≤ turn.2.accumulatedRows + cached.length then 0
          else turn.2.accumulatedRows + cached.length)
      (checks (Access.check P types.length types) (cells cached))
      (chunkStep P turn.1 turn.2) := by
  obtain ⟨shorter, row, rfl, -⟩ := h.exists_last hfull
  exact chunkStep_guarded h.sound (h.fillCache_eq (h.fillStep_full hfull)) h.holds (by simp)

/-- The next turn starts with an empty cache, and the rows of the full one are loaded. -/
theorem nextTurn (h : Progress P types delim turn cache loaded cached rest)
    (hfull : ¬ Room turn.2.accumulatedRows cached) (hpasses : ¬ CacheRefused P types cached)
    {out : Output} (hsound : out.Sound types)
    (hrows : out.accumulatedRows = if kRowsPerChunk ≤ turn.2.accumulatedRows + cached.length then 0
      else turn.2.accumulatedRows + cached.length) :
    Progress P types delim (cache.reader, out) ⟨cache.reader, .empty, 0⟩ (loaded ++ cached) []
      rest := by
  obtain ⟨shorter, row, rfl, hroom⟩ := h.exists_last hfull
  have hlt : out.accumulatedRows < kRowsPerChunk := by
    rw [hrows]
    split_ifs with hchunk
    · exact Nat.two_pow_pos 13
    · exact not_le.mp hchunk
  have hcache : ∀ more, fullCaches 0 [] (loaded ++ (shorter ++ [row]) ++ more) =
      fullCaches 0 [] loaded ++ (shorter ++ [row]) :: fullCaches out.accumulatedRows [] more := by
    intro more
    rw [List.append_assoc, h.caches, fullCaches_cons hroom hfull, ← hrows]
  have hloaded : fullCaches 0 [] (loaded ++ (shorter ++ [row])) =
      fullCaches 0 [] loaded ++ [shorter ++ [row]] := by
    have hnil := hcache []
    rwa [List.append_nil] at hnil
  refine ⟨hsound, hlt, ?_, ?_, ?_, ?_, ?_, ?_, rfl⟩
  · rw [List.foldl_append, h.state, foldl_fillState_of_not_room hroom hfull, ← hrows]
  · intro more
    rw [hcache, hloaded, List.append_assoc]
    rfl
  · rw [hloaded, List.forall_mem_append, List.forall_mem_singleton]
    exact ⟨h.passes, hpasses⟩
  · exact ⟨h.holds.reads, h.holds.expectedColumns, VectorOfStrings2D.holds_empty, rfl⟩
  · rw [List.append_nil]
    exact h.width
  · exact room_nil hlt

/-- A full cache that is not refused is followed by another turn. -/
theorem exists_nextTurn {start : CsvReader × Output}
    (h : Progress P types delim turn cache loaded cached rest) (hfilling : Filling P start turn cache)
    (hfull : ¬ Room turn.2.accumulatedRows cached) (hpasses : ¬ CacheRefused P types cached) :
    ∃ out, Filling P start (cache.reader, out) ⟨cache.reader, .empty, 0⟩ ∧
      Progress P types delim (cache.reader, out) ⟨cache.reader, .empty, 0⟩ (loaded ++ cached) []
        rest := by
  have hguarded := h.turn_guarded hfull
  have hleave := h.fillStep_full hfull
  cases hchecks : checks (Access.check P types.length types) (cells cached) with
  | ok _ =>
      obtain ⟨_, hturn, out, rfl, hsound, hrows⟩ := hguarded.exists_ok hchecks
      exact ⟨out, hfilling.turn hleave hturn, h.nextTurn hfull hpasses hsound hrows⟩
  | error fault =>
      cases fault with
      | exception text => exact absurd ⟨text, hchecks⟩ hpasses
      | undefined =>
          -- the loops go on as if the parse had left the columns as they were
          let out : Output := { turn.2 with accumulatedRows :=
            if kRowsPerChunk ≤ turn.2.accumulatedRows + cached.length then 0
            else turn.2.accumulatedRows + cached.length }
          have hsound : ∀ types, turn.2.Sound types → out.Sound types := fun types hsound =>
            ⟨hsound.builders, hsound.header, hsound.metadata⟩
          refine ⟨out, hfilling.goOn hleave (hguarded.eq_error_iff.mpr hchecks) hsound ?_,
            h.nextTurn hfull hpasses (hsound _ h.sound) rfl⟩
          rw [h.holds.cacheRows]

/-- The size of the cache that rows behind the loaded ones are in. -/
theorem openBytes_eq (h : Progress P types delim turn cache loaded cached rest)
    {more : List (List Bytes)} (hroom : Room turn.2.accumulatedRows more) :
    openBytes (loaded ++ more) = cacheBytes more := by
  have hstart : cacheState 0 [] = (0, cacheBytes []) := rfl
  rw [openBytes, ← hstart, List.foldl_append, h.state, foldl_fillState_of_room hroom]
  rfl

end Progress

variable {delim : UInt8} {start : CsvReader × Output} {rows : List (List Bytes)}

/-- The rows are those that are loaded, those in the cache and those that are left. -/
theorem Filling.exists_progress {turn : CsvReader × Output} {cache : Cache}
    (h : Filling P start turn cache)
    (hstart : Progress P types delim start ⟨start.1, .empty, 0⟩ [] [] rows)
    (htypes : types.length = 0 → rows = []) :
    ∃ loaded cached rest, Progress P types delim turn cache loaded cached rest ∧
      rows = loaded ++ cached ++ rest := by
  induction h with
  | start => exact ⟨[], [], rows, hstart, rfl⟩
  | @row turn cache cache' h hstep ih =>
      obtain ⟨loaded, cached, rest, hprogress, hrows⟩ := ih
      have hrest : types.length = 0 → rest = [] := fun hzero =>
        (List.append_eq_nil_iff.mp (hrows.symm.trans (htypes hzero))).2
      obtain ⟨row, rest', rfl, hnext⟩ := hprogress.of_again hrest hstep
      exact ⟨loaded, cached ++ [row], rest', hnext, by rw [hrows]; simp⟩
  | @turn turn turn' cache h hfull hstep ih =>
      obtain ⟨loaded, cached, rest, hprogress, hrows⟩ := ih
      have hroom := hprogress.not_room_of_leave hfull
      obtain ⟨hchecks, out, hturn, hsound, haccumulated⟩ :=
        (hprogress.turn_guarded hroom).of_ok hstep
      obtain rfl : turn' = (cache.reader, out) := by simpa using hturn
      have hpasses : ¬ CacheRefused P types cached := by
        rintro ⟨text, htext⟩
        exact absurd (hchecks.symm.trans htext) (by simp)
      exact ⟨loaded ++ cached, [], rest, hprogress.nextTurn hroom hpasses hsound haccumulated,
        by rw [hrows, List.append_nil]⟩
  | @goOn turn cache out h hfull hstep hsound haccumulated ih =>
      obtain ⟨loaded, cached, rest, hprogress, hrows⟩ := ih
      have hroom := hprogress.not_room_of_leave hfull
      have hchecks := (hprogress.turn_guarded hroom).eq_error_iff.mp hstep
      have hpasses : ¬ CacheRefused P types cached := by
        rintro ⟨text, htext⟩
        exact absurd (hchecks.symm.trans htext) (by simp)
      rw [hprogress.holds.cacheRows] at haccumulated
      exact ⟨loaded ++ cached, [], rest,
        hprogress.nextTurn hroom hpasses (hsound _ hprogress.sound) haccumulated,
        by rw [hrows, List.append_nil]⟩

/-- Rows of the header's width come into the cache, where no cache filled before is refused. -/
theorem Progress.exists_filling
    (hstart : Progress P types delim start ⟨start.1, .empty, 0⟩ [] [] rows)
    {before rest : List (List Bytes)} (hrows : rows = before ++ rest)
    (hwidth : ∀ row ∈ before, row.length = types.length)
    (hpasses : ∀ full ∈ fullCaches 0 [] before, ¬ CacheRefused P types full) :
    ∃ turn cache loaded cached, Filling P start turn cache ∧
      Progress P types delim turn cache loaded cached rest ∧ before = loaded ++ cached ∧
      Room turn.2.accumulatedRows cached := by
  induction before using List.reverseRecOn generalizing rest with
  | nil =>
      obtain rfl : rows = rest := hrows
      exact ⟨start, _, [], [], .start, hstart, rfl, room_nil hstart.accumulatedRows⟩
  | append_singleton before row ih =>
      rw [List.append_assoc] at hrows
      rw [List.forall_mem_append, List.forall_mem_singleton] at hwidth
      have hprefix : ∀ full ∈ fullCaches 0 [] before, ¬ CacheRefused P types full :=
        fun full hmem => hpasses full (mem_fullCaches_append hmem)
      obtain ⟨turn, cache, loaded, cached, hfilling, hprogress, rfl, hroom⟩ :=
        ih hrows hwidth.1 hprefix
      have hread : readInto types.length cached row = .ok () :=
        readInto_ok (fun _ => hwidth.2) hwidth.2 hprogress.cachedWidth
      obtain ⟨hread', -⟩ | ⟨_, hread', -⟩ | ⟨cache', -, hstep, hholds⟩ :=
        hprogress.holds.fillStep_cons hroom
      · exact absurd (hread.symm.trans hread') (by simp)
      · exact absurd (hread.symm.trans hread') (by simp)
      have hnext := hprogress.nextRow hroom hstep hwidth.2 hholds
      by_cases hroom' : Room turn.2.accumulatedRows (cached ++ [row])
      · exact ⟨turn, cache', loaded, cached ++ [row], hfilling.row hstep, hnext, by simp, hroom'⟩
      · have hmem : cached ++ [row] ∈ fullCaches 0 [] (loaded ++ cached ++ [row]) := by
          have hcons : fullCaches turn.2.accumulatedRows [] (cached ++ [row] ++ []) = _ :=
            fullCaches_cons hroom hroom'
          rw [List.append_nil] at hcons
          rw [List.append_assoc, hprogress.caches, hcons]
          simp
        obtain ⟨out, hfilling', hnext'⟩ :=
          hnext.exists_nextTurn (hfilling.row hstep) hroom' (hpasses _ hmem)
        exact ⟨_, _, _, [], hfilling', hnext', by simp, room_nil hnext'.accumulatedRows⟩

/-! ## The calls of `ReadRow` -/

/-- A call of `ReadRow` on a cache where the next row fits. -/
theorem Progress.callRejects {turn : CsvReader × Output} {cache : Cache}
    {loaded cached rest : List (List Bytes)}
    (h : Progress P types delim turn cache loaded cached rest)
    (hroom : Room turn.2.accumulatedRows cached) (htypes : types.length = 0 → rest = [])
    (hfits : cached ≠ [] → (rest.headD []).length ≤ (cached.headD []).length) :
    CallRejects P types.length turn cache := by
  obtain ⟨reader, batch, hread, hcolumns, hheight⟩ := h.holds.readRow hfits
  refine ⟨_, reader, batch, hread, ?_⟩
  intro hwidth
  cases rest with
  | nil => exact .inl ⟨rfl, hcolumns⟩
  | cons row rest =>
      right
      have hn : types.length ≠ 0 := fun hzero => List.cons_ne_nil _ _ (htypes hzero)
      have hne : row ≠ [] := by
        obtain ⟨text, -, hrows⟩ := h.holds.reads
        exact hrows.ne_nil row List.mem_cons_self
      have hcheck : CsvReader.checkRow types.length (cached.length + 1) row =
          .error (widthMismatch types.length batch.columnsInLine batch.height) := by
        rw [hheight (List.cons_ne_nil _ _), hcolumns]
        rw [hcolumns] at hwidth
        exact if_pos ⟨hn, hwidth⟩
      have hresult := CsvReader.callResult_eq_error.mpr ⟨hne, hcheck⟩
      have hread' : cache.reader.readRow cache.columnBatch = some (_, reader, batch) := hread
      rw [List.headD_cons, hresult] at hread'
      refine ⟨hresult, ?_⟩
      have hleave : fillStep turn.2.accumulatedRows cache =
          some (.leave (.error (widthMismatch types.length batch.columnsInLine batch.height))) := by
        rw [fillStep, if_pos (h.holds.room_iff.mpr hroom), hread']
        rfl
      rw [chunkStep, h.fillCache_eq hleave]
      rfl

/-- The first row of another width, if there is one, is shorter than the others, or the first one of
its cache, or behind a cache that is refused by an exception. -/
def LongRowSafe (P : Platform) (types : List ColumnType) (rows : List (List Bytes)) : Prop :=
  ∀ before row after, rows = before ++ row :: after → (∀ r ∈ before, r.length = types.length) →
    row.length ≤ types.length ∨ openBytes before = cacheBytes [] ∨
      ∃ full ∈ fullCaches 0 [] before, CacheRefused P types full

/-- **Rows of another width** are refused exactly when the first of them does not overrun the cache.
-/
theorem Progress.rejects_iff
    (hstart : Progress P types delim start ⟨start.1, .empty, 0⟩ [] [] rows)
    (htypes : types.length = 0 → rows = []) :
    (∀ turn cache, Filling P start turn cache →
        cache.columnBatch.approxByteSize < kBytePerCache ∧
          turn.2.accumulatedRows + cache.cacheRows < kRowsPerChunk →
        CallRejects P types.length turn cache) ↔ LongRowSafe P types rows := by
  constructor
  · intro hrejects before row after hrows hwidth
    by_contra hunsafe
    simp only [not_or, not_le, not_exists, not_and] at hunsafe
    obtain ⟨hlong, hbytes, hpasses⟩ := hunsafe
    obtain ⟨turn, cache, loaded, cached, hfilling, hprogress, rfl, hroom⟩ :=
      hstart.exists_filling hrows hwidth hpasses
    rw [hprogress.openBytes_eq hroom] at hbytes
    have hcached : cached ≠ [] := by
      rintro rfl
      exact hbytes rfl
    have hfirst := length_headD hcached hprogress.cachedWidth
    have hnone := hprogress.holds.readRow_eq_none hcached (hfirst.trans_lt hlong)
    obtain ⟨result, reader, batch, hread, -⟩ :=
      hrejects turn cache hfilling (hprogress.holds.room_iff.mpr hroom)
    exact absurd (hnone.symm.trans hread) (by simp)
  · intro hsafe turn cache hfilling hcondition
    obtain ⟨loaded, cached, rest, hprogress, hrows⟩ := hfilling.exists_progress hstart htypes
    have hroom := hprogress.holds.room_iff.mp hcondition
    have hrest : types.length = 0 → rest = [] := fun hzero =>
      (List.append_eq_nil_iff.mp (hrows.symm.trans (htypes hzero))).2
    apply hprogress.callRejects hroom hrest
    intro hcached
    have hfirst := length_headD hcached hprogress.cachedWidth
    rw [hfirst]
    cases rest with
    | nil => exact Nat.zero_le _
    | cons row after =>
        have hn : types.length ≠ 0 := fun hzero => List.cons_ne_nil _ _ (hrest hzero)
        have hne : ∀ r ∈ cached, r ≠ [] := by
          rintro r hr rfl
          exact hn (hprogress.cachedWidth [] hr).symm
        obtain hle | hbytes | ⟨full, hfull, hrefused⟩ :=
          hsafe (loaded ++ cached) row after hrows hprogress.width
        · exact hle
        · rw [hprogress.openBytes_eq hroom] at hbytes
          exact absurd hbytes (cacheBytes_ne hcached hne)
        · rw [hprogress.caches, fullCaches_eq_nil hroom, List.append_nil] at hfull
          exact absurd hrefused (hprogress.passes full hfull)

/-- The start of the loop, for a reader that has read the header. -/
theorem rejectsRagged_of_reads {columns : List (Bytes × ColumnType)} {reader : CsvReader}
    {text : Bytes} (hreads : reader.Reads delim text) (hrows : RowsOf delim text rows)
    (hcolumns : reader.expectedColumns = columns.length) (hnil : columns.length = 0 → rows = []) :
    RejectsRagged P columns reader ↔ LongRowSafe P (columns.map Prod.snd) rows := by
  have hlength : (columns.map Prod.fst).length = (columns.map Prod.snd).length := by
    rw [List.length_map, List.length_map]
  obtain ⟨writer, hwriter, hsound, -⟩ := exists_start P hlength
  have hstart : Progress P (columns.map Prod.snd) delim
      (reader, ⟨writer, (columns.map Prod.snd).map makeColumnBuilder, 0, []⟩)
      ⟨reader, .empty, 0⟩ [] [] rows :=
    .of_start hsound rfl ⟨⟨text, hreads, hrows⟩, hcolumns.trans (List.length_map _).symm,
      VectorOfStrings2D.holds_empty, rfl⟩
  rw [← hstart.rejects_iff (by rwa [List.length_map]), List.length_map]
  constructor
  · exact fun hrejects => hrejects writer hwriter
  · intro hrejects writer' hwriter'
    obtain rfl := Except.ok.inj (hwriter.symm.trans hwriter')
    exact hrejects

/-- The width that is expected is that of the header, and there is no row behind an empty header. -/
theorem CsvReader.Reads.header {reader reader' : CsvReader} {text : Bytes}
    (h : reader.Reads delim text) {columns : List (Bytes × ColumnType)}
    (hheader : reader.readHeader = some (.ok columns, reader'))
    (hrows : Tokenizes reader'.tokenizer rows) :
    ∃ rest, reader'.Reads delim rest ∧ RowsOf delim rest rows ∧
      reader'.expectedColumns = columns.length ∧ (columns.length = 0 → rows = []) := by
  obtain ⟨reader₁, hheader₁, hcolumns, hreads⟩ := CsvReader.readHeader_eq h
  obtain ⟨hparse, rfl⟩ := Prod.mk.inj (Option.some.inj (hheader.symm.trans hheader₁))
  have hlength : (firstRow delim text).1.length = columns.length :=
    (forall₂_of_mapM_ok hparse.symm).length_eq
  rw [tokenizes_iff hreads.valid, hreads.delim_eq, hreads.unread] at hrows
  refine ⟨_, hreads, hrows, hcolumns.trans hlength, ?_⟩
  intro hzero
  rw [firstRow_eq (List.length_eq_zero_iff.mp (hlength.trans hzero))] at hrows
  exact hrows.unique rowsOf_nil

/-- A text whose second row is shorter than its header. -/
def shortRow : Bytes := ascii "STRING:a,STRING:b\nx,y\nz\n"

/-- A text whose second row is longer than its header. -/
def longRow : Bytes := ascii "STRING:a\nx\ny,z\n"

end ColumnarEngine
