import ColumnarEngine.Io.ConvertWidth
import ColumnarEngine.Io.RoundTrip

/-!
# The file of a conversion

`WriteToColumnar` calls the writer once for every chunk, so the file it returns is the file of its
batches (`Chunked.writeFile_eq`), and a chunk has `kRowsPerChunk` rows at most
(`writeRows_chunked`).
-/

namespace ColumnarEngine

open Found ColumnarWriter

variable {P : Platform} {names : List Bytes} {types : List ColumnType}

/-! ## The calls of the writer -/

/-- The writer has got the header and the batches so far, each with the columns of the header and
the rows of a chunk; the builders hold the rows of the next one. -/
structure Chunked (names : List Bytes) (types : List ColumnType) (out : Output) : Prop where
  writer : ∃ w, new.writeHeader names types = .ok w ∧
    out.batches.foldlM writeBatch w = .ok out.writer
  batches : ∀ columns ∈ out.batches, columns.map Column.type = types ∧ 0 < batchRows columns ∧
    ∀ c ∈ columns, c.size ≤ kRowsPerChunk
  builders : out.builders.map ColumnBuilder.type = types
  filled : ∀ b ∈ out.builders, b.data.length ≤ out.accumulatedRows

/-- A cache fills the builders. -/
theorem Chunked.load {cached : List (List Bytes)} {out out' : Output}
    (h : Chunked names types out) (hload : LoadedRows P cached out out') :
    Chunked names types out' := by
  refine ⟨?_, ?_, hload.builders.types.trans h.builders, ?_⟩
  · rw [hload.batches, hload.writer]
    exact h.writer
  · rw [hload.batches]
    exact h.batches
  · intro b' hb'
    rw [hload.accumulatedRows]
    obtain ⟨j, hj⟩ := List.getElem?_of_mem hb'
    have hlt : j < out.builders.length :=
      hload.builders.length ▸ (List.getElem?_eq_some_iff.mp hj).1
    have hb := List.getElem?_eq_getElem hlt
    have hfilled := h.filled _ (List.mem_of_getElem? hb)
    by_cases hmem : j ∈ List.range (cached.headD []).length
    · obtain ⟨b'', hb'', -, vs, hdata, hcells⟩ := hload.builders.appended j hmem _ hb
      obtain rfl := Option.some.inj (hj.symm.trans hb'')
      have hvs := hcells.length_eq
      rw [List.length_range] at hvs
      rw [hdata, List.length_append]
      omega
    · rw [hload.builders.kept j hmem, hb] at hj
      obtain rfl := Option.some.inj hj
      omega

/-- A chunk is written. -/
theorem Chunked.flush {out out' : Output} (h : Chunked names types out)
    (hrows : out.accumulatedRows ≤ kRowsPerChunk) (hflush : out.flush = .ok out') :
    Chunked names types out' := by
  have hbuilders : (out.builders.map fun b => makeColumnBuilder b.type).map ColumnBuilder.type =
      types := by
    rw [List.map_map, ← h.builders]
    rfl
  have hempty : ∀ b ∈ out.builders.map fun b => makeColumnBuilder b.type, b.data.length ≤ 0 := by
    intro b hb
    obtain ⟨b', -, rfl⟩ := List.mem_map.mp hb
    exact le_rfl
  rw [Output.flush] at hflush
  dsimp only at hflush
  split_ifs at hflush with hpos
  · cases hwrite : out.writer.writeBatch (out.builders.map ColumnBuilder.finish) with
    | error fault =>
        rw [hwrite] at hflush
        cases hflush
    | ok writer =>
        rw [hwrite] at hflush
        obtain rfl := Except.ok.inj hflush
        refine ⟨?_, ?_, hbuilders, hempty⟩
        · obtain ⟨w, hheader, hfold⟩ := h.writer
          refine ⟨w, hheader, ?_⟩
          rw [List.foldlM_append, hfold]
          exact except_bind_eq_ok.mpr ⟨_, rfl, except_bind_eq_ok.mpr ⟨writer, hwrite, rfl⟩⟩
        · intro columns hcolumns
          obtain hold | hnew := List.mem_append.mp hcolumns
          · exact h.batches columns hold
          · obtain rfl := List.mem_singleton.mp hnew
            refine ⟨?_, hpos, ?_⟩
            · rw [List.map_map, ← h.builders]
              rfl
            · intro c hc
              obtain ⟨b, hb, rfl⟩ := List.mem_map.mp hc
              exact (h.filled b hb).trans hrows
  · obtain rfl := Except.ok.inj hflush
    exact ⟨h.writer, h.batches, hbuilders, hempty⟩

/-- **The conversion of rows** writes chunk after chunk. -/
theorem convertRows_chunked {n : ℕ} {cached rows : List (List Bytes)} {out out' : Output}
    (h : Chunked names types out) (hsound : out.Sound types)
    (hrows : out.accumulatedRows + cached.length < kRowsPerChunk)
    (hconvert : convertRows P n cached out rows = .ok out') : Chunked names types out' := by
  induction rows generalizing cached out with
  | nil =>
      rw [convertRows] at hconvert
      split_ifs at hconvert with hcached
      · obtain rfl := Except.ok.inj hconvert
        exact h
      · obtain ⟨loaded, hloaded, hflush⟩ := except_bind_eq_ok.mp hconvert
        obtain ⟨-, hload⟩ := (loadRows_guarded (n := n) hsound hcached).of_ok hloaded
        have haccumulated := hload.accumulatedRows
        exact (h.load hload).flush (by omega) hflush
  | cons row rows ih =>
      rw [convertRows] at hconvert
      obtain ⟨-, -, hconvert⟩ := except_bind_eq_ok.mp hconvert
      by_cases hroom : Room out.accumulatedRows (cached ++ [row])
      · rw [if_pos hroom] at hconvert
        exact ih h hsound hroom.2 hconvert
      · rw [if_neg hroom] at hconvert
        obtain ⟨loaded, hloaded, hconvert⟩ := except_bind_eq_ok.mp hconvert
        obtain ⟨-, hload⟩ := (loadRows_guarded (n := n) hsound (by simp)).of_ok hloaded
        have hchunked := h.load hload
        have haccumulated := hload.accumulatedRows
        rw [List.length_append, List.length_singleton] at haccumulated
        split_ifs at hconvert with hfull
        · obtain ⟨flushed, hflush, hconvert⟩ := except_bind_eq_ok.mp hconvert
          obtain ⟨flushed', hflush', hflushed, hsound'⟩ := exists_flush (hload.sound hsound)
          obtain rfl := Except.ok.inj (hflush.symm.trans hflush')
          refine ih (hchunked.flush (by omega) hflush) hsound' ?_ hconvert
          rw [hflushed.accumulatedRows]
          decide
        · exact ih hchunked (hload.sound hsound) (by simpa using hfull) hconvert

/-- **The output of a conversion**: the batches have been written, in chunks. -/
theorem writeRows_chunked (hnames : names.length = types.length) {reader : CsvReader}
    {delim : UInt8} {text : Bytes} {rows : List (List Bytes)} (hreads : reader.Reads delim text)
    (hrows : RowsOf delim text rows) {out : Output}
    (hout : writeRows P names types reader (types.map makeColumnBuilder) = .ok out) :
    Chunked names types out := by
  obtain ⟨w, hw, hsound, -⟩ := exists_start P hnames
  rw [writeRows_eq P names types hreads hrows, hw] at hout
  have hstart : Chunked names types ⟨w, types.map makeColumnBuilder, 0, []⟩ := by
    refine ⟨⟨w, hw, rfl⟩, by simp, hsound.builders, ?_⟩
    intro b hb
    obtain ⟨t, -, rfl⟩ := List.mem_map.mp hb
    exact le_rfl
  apply convertRows_chunked hstart hsound _ hout
  show 0 + 0 < kRowsPerChunk
  decide

/-- **The file of a conversion** is the file of its batches. -/
theorem Chunked.writeFile_eq {out : Output} (h : Chunked names types out) :
    writeFile names types out.batches = out.writer.finalize := by
  obtain ⟨w, hheader, hfold⟩ := h.writer
  rw [writeFile, hheader]
  show (out.batches.foldlM writeBatch w >>= fun w => w.finalize) = _
  rw [hfold]
  rfl

end ColumnarEngine
