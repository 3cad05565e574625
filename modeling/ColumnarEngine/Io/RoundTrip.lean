import ColumnarEngine.Found.Partial
import ColumnarEngine.Io.ColumnarReader

/-!
# The columnar file format round-trips

The reader undoes the writer at three levels: the chunk of a column decodes to the column
(`readFromBuffer_chunkBytes`), the metadata decode to what was encoded (`decodes_metadataDecoder`),
and the metadata are found from the end of the file (`parseMetadata_eq_ok`). Between them stands the
invariant of the writer, `Written`: in a file of less than `2 ^ 64` bytes the recorded offset and
size of every chunk are where its bytes are. Later writes only append, so extents stay valid.
-/

namespace ColumnarEngine

open Found ColumnarWriter

/-! ## Chunks -/

theorem valueBytes_str {s : Bytes} (h : s.length < 256 ^ 4) (t : ColumnType) :
    valueBytes t (.str s) = toLE 4 s.length ++ s := by
  rw [valueBytes, Nat.mod_eq_of_lt h]
  split_ifs with hpos
  · rfl
  · rw [List.length_eq_zero_iff.mp (Nat.eq_zero_of_not_pos hpos)]

/-- A string is read back. -/
theorem decodes_stringDecoder {s : Bytes} (h : s.length < 256 ^ 4) (t : ColumnType) :
    stringDecoder.Decodes (valueBytes t (.str s)) (.str s) := by
  rw [valueBytes_str h]
  exact (Decoder.decodes_natLE h).bind ((Decoder.decodes_bytes s).map Value.str)

/-- Every value takes at least a byte. -/
theorem valueBytes_ne_nil {t : ColumnType} {v : Value} (h : v.HasType t) :
    valueBytes t v ≠ [] := by
  apply List.ne_nil_of_length_pos
  cases v with
  | int n =>
      have hpos := ColumnType.elemSize_pos h.1
      rwa [valueBytes, length_encodeInt]
  | str s =>
      rw [valueBytes, List.length_append, length_toLE]
      omega

/-- A string column is read back. -/
theorem many_stringDecoder {data : List Value} (htyped : ∀ v ∈ data, v.HasType .string)
    (hshort : ∀ v ∈ data, v.length < 256 ^ 4) :
    Decoder.many stringDecoder (data.flatMap (valueBytes .string)).length
      (data.flatMap (valueBytes .string)) = some data := by
  have hvalue : ∀ v ∈ data, stringDecoder.Decodes (valueBytes .string v) (id v) ∧
      valueBytes .string v ≠ [] := by
    intro v hv
    refine ⟨?_, valueBytes_ne_nil (htyped v hv)⟩
    cases v with
    | int n => exact absurd rfl (htyped _ hv).1
    | str s => exact decodes_stringDecoder (hshort _ hv) .string
  have hlen := Decoder.length_le_length_flatMap fun v hv => (hvalue v hv).2
  rw [Decoder.many_flatMap hvalue hlen, List.map_id]

/-- The elements of a number column are the integers they hold. -/
theorem map_int_toInt {t : ColumnType} {data : List Value} (ht : t ≠ .string)
    (htyped : ∀ v ∈ data, v.HasType t) : (data.map Value.toInt).map Value.int = data := by
  rw [List.map_map]
  conv_rhs => rw [← List.map_id data]
  apply List.map_congr_left
  intro v hv
  cases v with
  | int n => rfl
  | str s => exact absurd (htyped _ hv).1 ht

/-- A number column is read back. -/
theorem decodeInts_valueBytes {t : ColumnType} {data : List Value} (ht : t ≠ .string)
    (htyped : ∀ v ∈ data, v.HasType t) :
    (decodeInts t.elemSize data.length (data.flatMap (valueBytes t))).map Value.int = data := by
  have hints := map_int_toInt ht htyped
  have hwidth : ∀ n ∈ data.map Value.toInt, InWidth t.elemSize n := by
    intro n hn
    exact (htyped (.int n) (hints ▸ List.mem_map_of_mem hn)).2
  have hdecode := decodeInts_flatMap hwidth
  rw [List.length_map] at hdecode
  conv_lhs => rw [← hints, List.flatMap_map]
  rw [List.length_map, List.length_map]
  exact (congrArg _ hdecode).trans hints

/-- Reading a chunk gives the column that was written. -/
theorem readFromBuffer_chunkBytes {c : Column} (hshort : ShortStrings c) :
    readFromBuffer c.type (chunkBytes c) = .ok c := by
  have hself : ∀ t, c.type = t → Column.ofValues t c.data = c := by
    rintro t rfl
    exact Column.ext rfl (map_conv_eq_self c.typed)
  unfold readFromBuffer chunkBytes
  by_cases ht : c.type = .string
  · have htyped : ∀ v ∈ c.data, v.HasType .string := fun v hv => ht ▸ c.typed v hv
    simp only [ht, if_true, many_stringDecoder htyped hshort, hself .string ht]
  · have hlen := length_flatMap_valueBytes ht c.typed
    have hdiv := Nat.mul_div_cancel c.data.length (ColumnType.elemSize_pos ht)
    simp only [ht, if_false, hlen, hdiv, Nat.mul_mod_left, ne_eq, not_true_eq_false,
      decodeInts_valueBytes ht c.typed, hself c.type rfl]

/-- A chunk has at least a byte for each element. -/
theorem size_le_length_chunkBytes (c : Column) : c.size ≤ (chunkBytes c).length := by
  unfold chunkBytes Column.size
  apply Decoder.length_le_length_flatMap
  intro v hv
  exact valueBytes_ne_nil (c.typed v hv)

/-! ## Metadata -/

/-- A name as the file holds it: cut to its length modulo `2 ^ 32`. -/
def storedName (name : Bytes) : Bytes := name.take (name.length % 256 ^ 4)

theorem length_storedName (name : Bytes) : (storedName name).length = name.length % 256 ^ 4 := by
  rw [storedName, List.length_take]
  exact Nat.min_eq_left (Nat.mod_le _ _)

/-- Only a name that fits its length field is stored whole. -/
theorem storedName_eq_self_iff {name : Bytes} :
    storedName name = name ↔ name.length < 256 ^ 4 := by
  constructor
  · intro h
    rw [← h, length_storedName]
    exact Nat.mod_lt _ (by norm_num)
  · intro h
    rw [storedName, Nat.mod_eq_of_lt h, List.take_length]

/-- The names of a header are stored whole if each of them is. -/
theorem map_storedName_eq_self_iff {names : List Bytes} :
    names.map storedName = names ↔ ∀ name ∈ names, name.length < 256 ^ 4 := by
  conv_lhs => rw [← List.map_id names, List.map_map, List.map_inj_left]
  exact forall₂_congr fun _ _ => storedName_eq_self_iff

/-- The metadata of a column as the file holds them. -/
def ColumnMetadata.raw (m : ColumnMetadata) : RawMetadata :=
  ⟨storedName m.name, m.type.code, m.offsets, m.sizes⟩

/-- The list of chunks and every number in it fit their fields in the file. -/
structure Storable (m : ColumnMetadata) : Prop where
  count : m.offsets.length < 256 ^ 4
  sizes : m.sizes.length = m.offsets.length
  extents : ∀ e ∈ m.offsets.zip m.sizes, e.1 < 256 ^ 8 ∧ e.2 < 256 ^ 8

/-- The place of a chunk is read back. -/
theorem decodes_chunkDecoder {e : ℕ × ℕ} (hoffset : e.1 < 256 ^ 8) (hsize : e.2 < 256 ^ 8) :
    chunkDecoder.Decodes (extentBytes e) (id e) :=
  Decoder.Decodes.bind (k := fun chunkOffset => do return (chunkOffset, ← Decoder.natLE 8))
    (Decoder.decodes_natLE hoffset) ((Decoder.decodes_natLE hsize).map fun size => (e.1, size))

namespace RawMetadata

/-- The bytes of the metadata of a column in the file. -/
def bytes (m : RawMetadata) : Bytes :=
  toLE 4 m.name.length ++ m.name ++ toLE 1 m.typeCode ++ toLE 4 m.offsets.length ++
    (m.offsets.zip m.sizes).flatMap extentBytes

/-- Every length and every number fits its field in the file. -/
structure Fits (m : RawMetadata) : Prop where
  name : m.name.length < 256 ^ 4
  typeCode : m.typeCode < 256 ^ 1
  count : m.offsets.length < 256 ^ 4
  sizes : m.sizes.length = m.offsets.length
  extents : ∀ e ∈ m.offsets.zip m.sizes, e.1 < 256 ^ 8 ∧ e.2 < 256 ^ 8

/-- The metadata of a column are read back, whatever the code of the type. -/
theorem Fits.decodes {m : RawMetadata} (h : m.Fits) : columnDecoder.Decodes m.bytes m := by
  have hchunks : Decoder.Decodes (chunkDecoder.times m.offsets.length)
      ((m.offsets.zip m.sizes).flatMap extentBytes) (m.offsets.zip m.sizes) := by
    have hzip : (m.offsets.zip m.sizes).length = m.offsets.length := by simp [h.sizes]
    have htimes := Decoder.decodes_times fun e he =>
      decodes_chunkDecoder (h.extents e he).1 (h.extents e he).2
    rwa [hzip, List.map_id] at htimes
  have hself : m = ⟨m.name, m.typeCode, (m.offsets.zip m.sizes).map Prod.fst,
      (m.offsets.zip m.sizes).map Prod.snd⟩ := by
    rw [List.map_fst_zip h.sizes.ge, List.map_snd_zip h.sizes.le]
  unfold bytes
  conv => arg 3; rw [hself]
  simp only [List.append_assoc]
  exact (Decoder.decodes_natLE h.name).bind <| (Decoder.decodes_bytes m.name).bind <|
    (Decoder.decodes_natLE h.typeCode).bind <| (Decoder.decodes_natLE h.count).bind <|
    hchunks.map _

end RawMetadata

/-- The metadata of a column are read back. -/
theorem decodes_columnDecoder {m : ColumnMetadata} (h : Storable m) :
    columnDecoder.Decodes (columnMetadataBytes m) m.raw := by
  have hname : (storedName m.name).length < 256 ^ 4 := by
    rw [length_storedName]
    exact Nat.mod_lt _ (by norm_num)
  have hfits : m.raw.Fits := ⟨hname, m.type.code_lt, h.count, h.sizes, h.extents⟩
  have htake : (m.offsets.zip m.sizes).take (m.offsets.length % 256 ^ 4) =
      m.offsets.zip m.sizes := by
    rw [Nat.mod_eq_of_lt h.count]
    exact List.take_of_length_le (by simp)
  have hbytes : columnMetadataBytes m = m.raw.bytes := by
    simp only [columnMetadataBytes, htake, RawMetadata.bytes, ColumnMetadata.raw,
      length_storedName, toLE_mod]
    rfl
  rw [hbytes]
  exact hfits.decodes

/-- The metadata are read back. -/
theorem decodes_metadataDecoder {ms : List ColumnMetadata} (hcount : ms.length < 256 ^ 4)
    (h : ∀ m ∈ ms, Storable m) :
    metadataDecoder.Decodes (metadataBytes ms) (ms.map ColumnMetadata.raw) :=
  (Decoder.decodes_natLE hcount).bind <|
    Decoder.decodes_times fun m hm => decodes_columnDecoder (h m hm)

/-- The metadata and the row count are found in a file that ends in them and in the offset of their
first byte. -/
theorem parseMetadata_eq_ok {file : File} {data : Bytes} {ms : List ColumnMetadata} {rows : ℕ}
    (hbytes : file.bytes =
      data ++ metadataBytes ms ++ toLE 8 rows ++ toLE 8 data.length ++ magic)
    (hcount : ms.length < 256 ^ 4) (h : ∀ m ∈ ms, Storable m) (hrows : rows < 256 ^ 8) :
    parseMetadata file = .ok ⟨ms.map ColumnMetadata.raw, rows⟩ := by
  have hsmall := file.small
  have hmagic : magic.length = 4 := rfl
  have hsize : file.bytes.length = data.length + (metadataBytes ms).length + 20 := by
    simp only [hbytes, List.length_append, length_toLE, hmagic]
  have hmeta : 4 ≤ (metadataBytes ms).length := by simp [metadataBytes]
  have htail : file.bytes.drop (file.bytes.length - 4) = magic := by
    rw [hsize, hbytes]
    exact List.drop_left' (by simp; omega)
  have hnumRows : (file.bytes.drop (file.bytes.length - 20)).take 8 = toLE 8 rows := by
    rw [hsize, hbytes, List.append_assoc (data ++ metadataBytes ms ++ toLE 8 rows),
      List.append_assoc (data ++ metadataBytes ms), List.drop_left' (by simp)]
    exact List.take_left' (by simp)
  have hstart : (file.bytes.drop (file.bytes.length - 12)).take 8 = toLE 8 data.length := by
    rw [hsize, hbytes, List.append_assoc (data ++ metadataBytes ms ++ toLE 8 rows),
      List.drop_left' (by simp; omega)]
    exact List.take_left' (by simp)
  have hmetadataSize : u64 (file.bytes.length - 20 + (256 ^ 8 - data.length)) =
      (metadataBytes ms).length := by
    unfold u64
    omega
  have hread : file.seekRead data.length (metadataBytes ms).length = metadataBytes ms := by
    have htake : (file.bytes.drop data.length).take (metadataBytes ms).length =
        metadataBytes ms := by
      rw [hbytes]
      simp only [List.append_assoc]
      rw [List.drop_left]
      exact List.take_left
    have hpos : data.length < 2 ^ 63 := by omega
    simp only [File.seekRead, if_pos hpos, htake]
    simp
  have hdecode := decodes_metadataDecoder hcount h []
  rw [List.append_nil] at hdecode
  have hlarge : ¬ file.bytes.length < 24 := by omega
  have hfits : ¬ 2 ^ 63 ≤ (metadataBytes ms).length := by omega
  unfold parseMetadata
  simp only [hlarge, if_false, htail, ne_eq, not_true_eq_false, hnumRows, hstart,
    ofLE_toLE_of_lt hrows, ofLE_toLE_of_lt (show data.length < 256 ^ 8 by omega), hmetadataSize,
    if_neg hfits, hread, hdecode]

/-! ## The writer's invariant -/

/-- The offsets and sizes of the metadata are those of the chunks in the file. -/
structure Extents (file : Bytes) (m : ColumnMetadata) (chunks : List Column) : Prop where
  offsets : List.Forall₂ (fun offset c => offset + (chunkBytes c).length ≤ file.length ∧
    Stored file offset (chunkBytes c)) m.offsets chunks
  sizes : m.sizes = chunks.map fun c => (chunkBytes c).length

/-- Appending to the file keeps the extents. -/
theorem Extents.append {file : Bytes} {m : ColumnMetadata} {chunks : List Column}
    (h : Extents file m chunks) (more : Bytes) : Extents (file ++ more) m chunks where
  offsets := h.offsets.imp fun _ _ ⟨hle, hstored⟩ =>
    ⟨by rw [List.length_append]; omega, hstored.append more⟩
  sizes := h.sizes

/-- A chunk more in the file and in the metadata. -/
theorem Extents.snoc {file : Bytes} {m m' : ColumnMetadata} {chunks : List Column} {c : Column}
    {offset : ℕ} (h : Extents file m chunks)
    (hle : offset + (chunkBytes c).length ≤ file.length)
    (hstored : Stored file offset (chunkBytes c))
    (hoffsets : m'.offsets = m.offsets ++ [offset])
    (hsizes : m'.sizes = m.sizes ++ [(chunkBytes c).length]) : Extents file m' (chunks ++ [c]) where
  offsets := by
    rw [hoffsets]
    exact List.rel_append h.offsets (.cons ⟨hle, hstored⟩ .nil)
  sizes := by rw [hsizes, h.sizes, List.map_append]; rfl

/-- Recording changes nothing but extents. -/
theorem map_record {β : Type*} (f : ColumnMetadata → β)
    (hf : ∀ m offsets sizes, f { m with offsets := offsets, sizes := sizes } = f m)
    (offset : ℕ) (ms : List ColumnMetadata) (cs : List Column) :
    (record offset ms cs).map f = ms.map f := by
  induction ms generalizing offset cs with
  | nil => rfl
  | cons m ms ih =>
      cases cs with
      | nil => rfl
      | cons c cs => simp only [record, List.map_cons, hf, ih]

/-- What is recorded for a batch written at the end of the file is where its chunks are. -/
theorem record_extent {file : Bytes} {ms : List ColumnMetadata} {cs : List Column}
    (hlen : ms.length = cs.length) (hsmall : (file ++ batchBytes cs).length < 256 ^ 8) {i : ℕ}
    {m' : ColumnMetadata} (hm' : (record file.length ms cs)[i]? = some m') :
    ∃ m c offset, ms[i]? = some m ∧ cs[i]? = some c ∧ m'.offsets = m.offsets ++ [offset] ∧
      m'.sizes = m.sizes ++ [(chunkBytes c).length] ∧
      offset + (chunkBytes c).length ≤ (file ++ batchBytes cs).length ∧
      Stored (file ++ batchBytes cs) offset (chunkBytes c) := by
  induction ms generalizing file cs i with
  | nil => simp [record] at hm'
  | cons m ms ih =>
      cases cs with
      | nil => simp at hlen
      | cons c cs =>
          have hfile : file ++ batchBytes (c :: cs) = (file ++ chunkBytes c) ++ batchBytes cs := by
            simp [batchBytes]
          rw [hfile] at hsmall ⊢
          have hoffset : u64 (file.length + (chunkBytes c).length) =
              (file ++ chunkBytes c).length := by
            rw [List.length_append] at hsmall ⊢
            exact Nat.mod_eq_of_lt (by rw [List.length_append] at hsmall; omega)
          cases i with
          | zero =>
              obtain rfl := Option.some.inj hm'
              refine ⟨m, c, file.length, rfl, rfl, rfl, rfl, ?_,
                (stored_length_append file (chunkBytes c)).append _⟩
              simp only [List.length_append]
              omega
          | succ i =>
              rw [record, hoffset] at hm'
              exact ih (by simpa using hlen) hsmall hm'

/-- The chunks of a column. -/
def chunksOf (batches : List (List Column)) (i : ℕ) : List Column := batches.filterMap (·[i]?)

/-- Every batch has a chunk of every column. -/
theorem forall₂_chunksOf {batches : List (List Column)} {i : ℕ} (h : ∀ b ∈ batches, i < b.length) :
    List.Forall₂ (fun b c => b[i]? = some c) batches (chunksOf batches i) := by
  induction batches with
  | nil => exact .nil
  | cons b batches ih =>
      have hb := List.getElem?_eq_getElem (h b List.mem_cons_self)
      have hrest := ih fun b' hb' => h b' (List.mem_cons_of_mem b hb')
      simp only [chunksOf, List.filterMap_cons, hb]
      exact .cons hb hrest

/-- The rows of all batches. -/
def totalRows (batches : List (List Column)) : ℕ := (batches.map batchRows).sum

/-- The batch has the header's types, and its strings fit. -/
structure FitsHeader (types : List ColumnType) (columns : List Column) : Prop where
  types : columns.map Column.type = types
  short : ∀ c ∈ columns, ShortStrings c

/-- What holds of the writer after the header and the batches `done`. -/
structure Written (names : List Bytes) (types : List ColumnType) (w : ColumnarWriter)
    (done : List (List Column)) : Prop where
  header : w.headerWritten = true
  names : w.metadata.map ColumnMetadata.name = names
  types : w.metadata.map ColumnMetadata.type = types
  file : w.file = magic ++ done.flatMap batchBytes
  offset : w.currentOffset = u64 w.file.length
  rows : w.numRows = u64 (totalRows done)
  rows_le : totalRows done ≤ w.file.length
  /-- Offsets are right as long as the counter has not wrapped. -/
  extents : w.file.length < 256 ^ 8 → ∀ i m, w.metadata[i]? = some m →
    Extents w.file m (chunksOf done i)

/-- A batch has at least a byte for each row. -/
theorem batchRows_le (columns : List Column) : batchRows columns ≤ (batchBytes columns).length := by
  cases columns with
  | nil => exact Nat.zero_le _
  | cons c cs =>
      have := size_le_length_chunkBytes c
      simp only [batchRows, List.head?_cons, Option.map_some, Option.getD_some, batchBytes,
        List.flatMap_cons, List.length_append]
      omega

/-- The columns of the header fit those of the batch. -/
theorem forall₂_fits {ms : List ColumnMetadata} {columns : List Column}
    (htypes : columns.map Column.type = ms.map ColumnMetadata.type)
    (hshort : ∀ c ∈ columns, ShortStrings c) :
    List.Forall₂ (fun m c => Fits m.type c) ms columns := by
  induction ms generalizing columns with
  | nil =>
      obtain rfl := List.map_eq_nil_iff.mp htypes
      exact .nil
  | cons m ms ih =>
      cases columns with
      | nil => simp at htypes
      | cons c columns =>
          rw [List.map_cons, List.map_cons, List.cons.injEq] at htypes
          exact .cons ⟨htypes.1, hshort c List.mem_cons_self⟩
            (ih htypes.2 fun c' hc' => hshort c' (List.mem_cons_of_mem c hc'))

/-- Writing the header establishes the invariant. -/
theorem written_header {names : List Bytes} {types : List ColumnType}
    (hlen : names.length = types.length) :
    ∃ w, new.writeHeader names types = .ok w ∧ Written names types w [] := by
  refine ⟨_, writeHeader_eq_ok hlen.le, rfl, ?_, ?_, rfl, rfl, rfl, Nat.zero_le _, ?_⟩
  · rw [List.map_zipWith, ← List.map_uncurry_zip_eq_zipWith]
    exact List.map_fst_zip hlen.le
  · rw [List.map_zipWith, ← List.map_uncurry_zip_eq_zipWith]
    exact List.map_snd_zip hlen.ge
  · intro _ i m hm
    obtain ⟨name, type, -, -, rfl⟩ : ∃ name type, names[i]? = some name ∧ types[i]? = some type ∧
        (⟨name, type, [], []⟩ : ColumnMetadata) = m := by
      simpa [List.getElem?_zipWith_eq_some] using hm
    exact ⟨.nil, rfl⟩

/-- Writing a batch keeps the invariant. -/
theorem Written.writeBatch {names : List Bytes} {types : List ColumnType} {w : ColumnarWriter}
    {done : List (List Column)} {columns : List Column} (hw : Written names types w done)
    (h : FitsHeader types columns) :
    ∃ w', w.writeBatch columns = .ok w' ∧ Written names types w' (done ++ [columns]) := by
  have hfits := forall₂_fits (h.types.trans hw.types.symm) h.short
  have hrows := batchRows_le columns
  have hrows_le := hw.rows_le
  refine ⟨_, writeBatch_eq_ok hw.header hfits (by rw [hw.offset]; simp [u64]), hw.header, ?_, ?_,
    ?_,
    ?_, ?_, ?_, ?_⟩
  · exact (map_record _ (fun _ _ _ => rfl) _ _ _).trans hw.names
  · exact (map_record _ (fun _ _ _ => rfl) _ _ _).trans hw.types
  · rw [hw.file, List.flatMap_append, List.flatMap_singleton, List.append_assoc]
  · rw [hw.offset, u64_u64_add, List.length_append]
  · rw [hw.rows, u64_u64_add, totalRows, totalRows, List.map_append, List.sum_append]
    simp
  · simp only [totalRows, List.map_append, List.sum_append, List.length_append] at hrows_le ⊢
    simp only [List.map_cons, List.map_nil, List.sum_singleton]
    omega
  · intro hsmall i m' hm'
    have hold : w.file.length < 256 ^ 8 := by
      simp only [List.length_append] at hsmall
      omega
    have hoffset : w.currentOffset = w.file.length := hw.offset.trans (Nat.mod_eq_of_lt hold)
    dsimp only at hm'
    rw [hoffset] at hm'
    obtain ⟨m, c, offset, hm, hc, hoffsets, hsizes, hle, hstored⟩ :=
      record_extent hfits.length_eq hsmall hm'
    have hchunks : chunksOf (done ++ [columns]) i = chunksOf done i ++ [c] := by
      simp [chunksOf, List.filterMap_append, hc]
    rw [hchunks]
    exact ((hw.extents hold i m hm).append _).snoc hle hstored hoffsets hsizes

/-- Writing batches keeps the invariant. -/
theorem Written.foldlM {names : List Bytes} {types : List ColumnType} {w : ColumnarWriter}
    {done batches : List (List Column)} (hw : Written names types w done)
    (h : ∀ b ∈ batches, FitsHeader types b) :
    ∃ w', batches.foldlM ColumnarWriter.writeBatch w = .ok w' ∧
      Written names types w' (done ++ batches) := by
  induction batches generalizing w done with
  | nil => exact ⟨w, rfl, by simpa using hw⟩
  | cons b batches ih =>
      obtain ⟨w₁, hw₁, hinv₁⟩ := hw.writeBatch (h b List.mem_cons_self)
      obtain ⟨w', hw', hinv'⟩ := ih hinv₁ fun b' hb' => h b' (List.mem_cons_of_mem b hb')
      exact ⟨w', by rw [List.foldlM_cons, hw₁]; exact hw', by simpa using hinv'⟩

/-! ## The round trip -/

/-- The complete file is read back: its metadata are accepted and are those of the header and the
batches, and every chunk is the column that was written. -/
def RoundTrips (names : List Bytes) (types : List ColumnType) (batches : List (List Column)) :
    Prop :=
  ∃ bytes, writeFile names types batches = .ok bytes ∧
    ∀ file : File, file.bytes = bytes →
      ∃ table, parseMetadata file = .ok table ∧ table.names = names ∧
        table.types = types.map some ∧
        (∀ m ∈ table.columnMeta,
          m.offsets.length = batches.length ∧ m.sizes.length = batches.length) ∧
        table.numRows = totalRows batches ∧
        ∀ i k columns c, batches[k]? = some columns → columns[i]? = some c →
          getColumnData file table i k = .ok c

section Reading

variable {names : List Bytes} {types : List ColumnType} {w : ColumnarWriter}
  {batches : List (List Column)} {file : File}

/-- The file is what the writer leaves. -/
theorem writeFile_eq_ok (hlen : names.length = types.length)
    (hbatches : ∀ b ∈ batches, FitsHeader types b) :
    ∃ w, Written names types w batches ∧ writeFile names types batches =
      .ok (w.file ++ metadataBytes w.metadata ++ toLE 8 w.numRows ++ toLE 8 w.currentOffset ++
        magic) := by
  obtain ⟨w₀, hheader, hw₀⟩ := written_header hlen
  obtain ⟨w, hfold, hw⟩ := hw₀.foldlM hbatches
  refine ⟨w, hw, ?_⟩
  simp [writeFile, hheader, hfold, finalize, hw.header, bind, Except.bind]

/-- A file that was written begins with what the writer held before its footer. -/
theorem exists_written (hlen : names.length = types.length)
    (hbatches : ∀ b ∈ batches, FitsHeader types b)
    (hwrite : writeFile names types batches = .ok file.bytes) :
    ∃ w, Written names types w batches ∧ w.file <+: file.bytes ∧
      file.bytes = w.file ++ metadataBytes w.metadata ++ toLE 8 w.numRows ++
        toLE 8 w.currentOffset ++ magic := by
  obtain ⟨w, hw, hfile⟩ := writeFile_eq_ok hlen hbatches
  have hbytes := Except.ok.inj (hwrite.symm.trans hfile)
  refine ⟨w, hw, ?_, hbytes⟩
  rw [hbytes]
  simp only [List.append_assoc]
  exact List.prefix_append _ _

/-- Every column of the metadata has a chunk for every batch. -/
theorem Written.forall₂_chunksOf (hw : Written names types w batches)
    (hbatches : ∀ b ∈ batches, FitsHeader types b) {i : ℕ} {m : ColumnMetadata}
    (hm : w.metadata[i]? = some m) :
    List.Forall₂ (fun b c => b[i]? = some c) batches (chunksOf batches i) := by
  apply ColumnarEngine.forall₂_chunksOf
  intro b hb
  have hlen := congrArg List.length ((hbatches b hb).types.trans hw.types.symm)
  have hi := (List.getElem?_eq_some_iff.mp hm).1
  rw [List.length_map, List.length_map] at hlen
  omega

/-- Every column of the metadata counts its chunks. -/
theorem Written.length_extents (hw : Written names types w batches)
    (hbatches : ∀ b ∈ batches, FitsHeader types b) (hsmall : w.file.length < 2 ^ 63)
    {m : ColumnMetadata} (hm : m ∈ w.metadata) :
    m.offsets.length = batches.length ∧ m.sizes.length = batches.length := by
  obtain ⟨i, hi⟩ := List.mem_iff_getElem?.mp hm
  have hextents := hw.extents (by omega) i m hi
  have hchunks := (hw.forall₂_chunksOf hbatches hi).length_eq
  exact ⟨hextents.offsets.length_eq.trans hchunks.symm, by simp [hextents.sizes, hchunks]⟩

/-- The metadata fit their fields in the file. -/
theorem Written.storable (hw : Written names types w batches)
    (hbatches : ∀ b ∈ batches, FitsHeader types b) (hsmall : w.file.length < 2 ^ 63)
    (hcount : batches.length < 256 ^ 4)
    {m : ColumnMetadata} (hm : m ∈ w.metadata) : Storable m := by
  obtain ⟨hoffsets, hsizes⟩ := hw.length_extents hbatches hsmall hm
  obtain ⟨i, hi⟩ := List.mem_iff_getElem?.mp hm
  have hextents := hw.extents (by omega) i m hi
  refine ⟨by omega, by omega, ?_⟩
  intro e he
  have hpair : e.1 + e.2 ≤ w.file.length := by
    obtain ⟨k, hk⟩ := List.mem_iff_getElem?.mp he
    rw [List.getElem?_zip_eq_some, hextents.sizes] at hk
    obtain ⟨c, hc, hle, -⟩ := getElem?_of_forall₂ hextents.offsets hk.1
    have hsize := hk.2
    rw [List.getElem?_map, hc, Option.map_some, Option.some.injEq] at hsize
    omega
  constructor <;> omega

/-- The metadata are found from the end of the file. -/
theorem Written.parseMetadata (hw : Written names types w batches)
    (hbatches : ∀ b ∈ batches, FitsHeader types b) (hcolumns : types.length < 256 ^ 4)
    (hcount : batches.length < 256 ^ 4)
    (hbytes : file.bytes = w.file ++ metadataBytes w.metadata ++ toLE 8 w.numRows ++
      toLE 8 w.currentOffset ++ magic) :
    parseMetadata file = .ok ⟨w.metadata.map ColumnMetadata.raw, totalRows batches⟩ := by
  have hsmall : w.file.length < 2 ^ 63 := by
    have := file.small
    simp only [hbytes, List.length_append] at this
    omega
  have hrows_le := hw.rows_le
  have hoffset : w.currentOffset = w.file.length :=
    hw.offset.trans (Nat.mod_eq_of_lt (by omega))
  have hrows : w.numRows = totalRows batches := hw.rows.trans (Nat.mod_eq_of_lt (by omega))
  have hmetadata : w.metadata.length = types.length := by rw [← hw.types, List.length_map]
  rw [hoffset, hrows] at hbytes
  exact parseMetadata_eq_ok hbytes (by omega)
    (fun m hm => hw.storable hbatches hsmall hcount hm) (by omega)

/-- A chunk is found if one transfer reads it, and refused otherwise. -/
theorem Written.getColumnData (hw : Written names types w batches)
    (hbatches : ∀ b ∈ batches, FitsHeader types b) (hpre : w.file <+: file.bytes)
    {rows i k : ℕ} {columns : List Column} {c : Column}
    (hcolumns : batches[k]? = some columns) (hc : columns[i]? = some c) :
    getColumnData file ⟨w.metadata.map ColumnMetadata.raw, rows⟩ i k =
      if (chunkBytes c).length ≤ File.preadMax then .ok c
      else .error (.exception (ascii "Failed to read data")) := by
  have hfit := hbatches columns (List.mem_of_getElem? hcolumns)
  have hsmall : w.file.length < 2 ^ 63 := hpre.length_le.trans_lt file.small
  -- The column's metadata.
  have htype := congrArg (·[i]?) (hfit.types.trans hw.types.symm)
  simp only [List.getElem?_map, hc, Option.map_some] at htype
  obtain ⟨m, hm, hmtype⟩ := Option.map_eq_some_iff.mp htype.symm
  -- The extent of the chunk.
  have hextents := hw.extents (by omega) i m hm
  obtain ⟨c', hchunk, hc'⟩ := getElem?_of_forall₂ (hw.forall₂_chunksOf hbatches hm) hcolumns
  obtain rfl : c = c' := Option.some.inj (hc.symm.trans hc')
  obtain ⟨offset, hoffset, hle, hstored⟩ := getElem?_of_forall₂ hextents.offsets.flip hchunk
  have hsize : m.sizes[k]? = some (chunkBytes c).length := by
    rw [hextents.sizes, List.getElem?_map, hchunk, Option.map_some]
  have hk : ¬ m.offsets.length ≤ k := not_le.mpr (List.getElem?_eq_some_iff.mp hoffset).1
  have hpread : file.pread (chunkBytes c).length offset =
      some ((chunkBytes c).take File.preadMax) := by
    obtain ⟨rest, hrest⟩ := hpre
    have htake := (hstored.append rest).take_drop
    rw [hrest] at htake
    rw [File.pread, if_pos (by omega), Nat.min_comm, ← List.take_take, htake]
  have hfits : ¬ 2 ^ 63 ≤ (chunkBytes c).length := by omega
  have hread : readRawColumnData file ⟨w.metadata.map ColumnMetadata.raw, rows⟩ i k =
      if (chunkBytes c).length ≤ File.preadMax then .ok (chunkBytes c)
      else .error (.exception (ascii "Failed to read data")) := by
    simp only [readRawColumnData, List.getElem?_map, hm, Option.map_some, ColumnMetadata.raw, hk,
      if_false, List.getD_eq_getElem?_getD, hoffset, hsize, Option.getD_some, hpread]
    rw [if_neg hfits, List.length_take]
    split_ifs with hmin hmax hmax
    · rw [List.take_of_length_le hmax]
    · omega
    · omega
    · rfl
  have hraw : readFromBuffer m.type (chunkBytes c) = .ok c := by
    rw [hmtype]
    exact readFromBuffer_chunkBytes (hfit.short c (List.mem_of_getElem? hc))
  unfold ColumnarEngine.getColumnData
  rw [hread]
  split_ifs with hmax
  · simpa only [bind, Except.bind, List.getElem?_map, hm, Option.map_some, Option.bind_some,
      ColumnMetadata.raw, ColumnType.ofCode_code] using hraw
  · rfl

end Reading

/-- What is read of a written file: its metadata, with the names cut, and each chunk that one
transfer reads. -/
theorem reads_written {names : List Bytes} {types : List ColumnType} {batches : List (List Column)}
    (hlen : names.length = types.length) (hcolumns : types.length < 256 ^ 4)
    (hcount : batches.length < 256 ^ 4) (hbatches : ∀ b ∈ batches, FitsHeader types b) {file : File}
    (hwrite : writeFile names types batches = .ok file.bytes) :
    ∃ table, parseMetadata file = .ok table ∧ table.names = names.map storedName ∧
      table.types = types.map some ∧
      (∀ m ∈ table.columnMeta,
        m.offsets.length = batches.length ∧ m.sizes.length = batches.length) ∧
      table.numRows = totalRows batches ∧
      ∀ i k columns c, batches[k]? = some columns → columns[i]? = some c →
        getColumnData file table i k =
          if (chunkBytes c).length ≤ File.preadMax then .ok c
          else .error (.exception (ascii "Failed to read data")) := by
  obtain ⟨w, hw, hpre, hbytes⟩ := exists_written hlen hbatches hwrite
  have hsmall : w.file.length < 2 ^ 63 := hpre.length_le.trans_lt file.small
  refine ⟨_, hw.parseMetadata hbatches hcolumns hcount hbytes, ?_, ?_, ?_, rfl, ?_⟩
  · rw [RawTable.names, List.map_map, ← hw.names, List.map_map]
    rfl
  · rw [RawTable.types, ← hw.types, List.map_map, List.map_map]
    exact List.map_congr_left fun m _ => ColumnType.ofCode_code m.type
  · intro m hm
    obtain ⟨m₀, hm₀, rfl⟩ := List.mem_map.mp hm
    exact hw.length_extents hbatches hsmall hm₀
  · intro i k columns c hk hc
    exact hw.getColumnData hbatches hpre hk hc

/-- The format round-trips for every header whose names fit their length field and all batches of
the header's types whose chunks are read in one transfer. -/
theorem round_trips {names : List Bytes} {types : List ColumnType} {batches : List (List Column)}
    (hlen : names.length = types.length) (hnames : ∀ name ∈ names, name.length < 256 ^ 4)
    (hcolumns : types.length < 256 ^ 4) (hcount : batches.length < 256 ^ 4)
    (hbatches : ∀ b ∈ batches, FitsHeader types b)
    (hmax : ∀ b ∈ batches, ∀ c ∈ b, (chunkBytes c).length ≤ File.preadMax) :
    RoundTrips names types batches := by
  obtain ⟨w, -, hfile⟩ := writeFile_eq_ok hlen hbatches
  refine ⟨_, hfile, ?_⟩
  intro file hbytes
  obtain ⟨table, hparse, htable, htypes, hextents, hrows, hread⟩ :=
    reads_written hlen hcolumns hcount hbatches (hbytes ▸ hfile)
  refine ⟨table, hparse, ?_, htypes, hextents, hrows, ?_⟩
  · exact htable.trans (map_storedName_eq_self_iff.mpr hnames)
  · intro i k columns c hk hc
    rw [hread i k columns c hk hc,
      if_pos (hmax columns (List.mem_of_getElem? hk) c (List.mem_of_getElem? hc))]

/-- Only names that fit their length field and chunks that one transfer reads are read back. -/
theorem of_roundTrips {names : List Bytes} {types : List ColumnType} {batches : List (List Column)}
    (hlen : names.length = types.length) (hcolumns : types.length < 256 ^ 4)
    (hcount : batches.length < 256 ^ 4) (hbatches : ∀ b ∈ batches, FitsHeader types b) {file : File}
    (hwrite : writeFile names types batches = .ok file.bytes) (h : RoundTrips names types batches) :
    (∀ name ∈ names, name.length < 256 ^ 4) ∧
      ∀ b ∈ batches, ∀ c ∈ b, (chunkBytes c).length ≤ File.preadMax := by
  obtain ⟨bytes, hbytes, hfile⟩ := h
  obtain ⟨table, hparse, hnames, -, -, -, hcolumn⟩ :=
    hfile file (Except.ok.inj (hwrite.symm.trans hbytes))
  obtain ⟨table', hparse', hstored, -, -, -, hread⟩ :=
    reads_written hlen hcolumns hcount hbatches hwrite
  obtain rfl := Except.ok.inj (hparse.symm.trans hparse')
  constructor
  · exact map_storedName_eq_self_iff.mp (hstored.symm.trans hnames)
  · intro b hb c hc
    obtain ⟨k, hk⟩ := List.mem_iff_getElem?.mp hb
    obtain ⟨i, hi⟩ := List.mem_iff_getElem?.mp hc
    have hok := hcolumn i k b c hk hi
    rw [hread i k b c hk hi] at hok
    by_contra hlong
    rw [if_neg hlong] at hok
    cases hok

/-- **When the file format round-trips**: for every header and all batches of the header's types,
whose file fits into a stream, exactly if every name fits its length field and one transfer reads
every chunk. -/
theorem roundTrips_iff {names : List Bytes} {types : List ColumnType}
    {batches : List (List Column)} (hlen : names.length = types.length)
    (hcolumns : types.length < 256 ^ 4) (hcount : batches.length < 256 ^ 4)
    (hbatches : ∀ b ∈ batches, FitsHeader types b) {file : File}
    (hwrite : writeFile names types batches = .ok file.bytes) :
    RoundTrips names types batches ↔
      (∀ name ∈ names, name.length < 256 ^ 4) ∧
        ∀ b ∈ batches, ∀ c ∈ b, (chunkBytes c).length ≤ File.preadMax := by
  constructor
  · exact of_roundTrips hlen hcolumns hcount hbatches hwrite
  · rintro ⟨hnames, hmax⟩
    exact round_trips hlen hnames hcolumns hcount hbatches hmax

/-! ## Files -/

/-- The metadata of a column take less than `2 ^ 37` bytes, whatever they are. -/
theorem length_columnMetadataBytes_le (m : ColumnMetadata) :
    (columnMetadataBytes m).length ≤ 2 ^ 37 := by
  have hname := Nat.mod_lt m.name.length (show 0 < 256 ^ 4 by norm_num)
  have hcount := Nat.mod_lt m.offsets.length (show 0 < 256 ^ 4 by norm_num)
  have hextents : ∀ es : List (ℕ × ℕ), (es.flatMap extentBytes).length = es.length * 16 := by
    intro es
    simp [List.length_flatMap, extentBytes]
  simp only [columnMetadataBytes, List.length_append, length_toLE, hextents, List.length_take]
  omega

/-- A file of moderate size exists. -/
theorem exists_file {names : List Bytes} {types : List ColumnType} {batches : List (List Column)}
    (hlen : names.length = types.length) (hbatches : ∀ b ∈ batches, FitsHeader types b)
    (hsize : types.length * 2 ^ 37 + (batches.flatMap batchBytes).length < 2 ^ 62) :
    ∃ file : File, writeFile names types batches = .ok file.bytes := by
  obtain ⟨w, hw, hfile⟩ := writeFile_eq_ok hlen hbatches
  have hmetadata : (w.metadata.flatMap columnMetadataBytes).length ≤ types.length * 2 ^ 37 := by
    rw [← hw.types, List.length_map, List.length_flatMap, ← List.length_map (f := fun m =>
      (columnMetadataBytes m).length), ← smul_eq_mul]
    apply List.sum_le_card_nsmul _ _
    intro n hn
    obtain ⟨m, -, rfl⟩ := List.mem_map.mp hn
    exact length_columnMetadataBytes_le m
  refine ⟨⟨_, ?_⟩, hfile⟩
  have hmagic : magic.length = 4 := rfl
  simp only [hw.file, metadataBytes, List.length_append, length_toLE, hmagic]
  omega

/-- Two batches of two columns, with an empty string in them. -/
theorem fitsHeader_two_batches : ∀ b ∈ [[Column.ofValues .int32 [.int 1, .int (-2)],
      .ofValues .string [.str (ascii "ab"), .str []]],
    [.ofValues .int32 [.int 3], .ofValues .string [.str (ascii "c")]]],
    FitsHeader [.int32, .string] b := by
  intro b hb
  rcases List.mem_pair.mp hb with rfl | rfl
  · exact ⟨rfl, by unfold ShortStrings; decide⟩
  · exact ⟨rfl, by unfold ShortStrings; decide⟩

/-- The file of the two batches. -/
theorem roundTrips_iff_two_batches :
    RoundTrips [ascii "id", ascii "name"] [.int32, .string]
      [[.ofValues .int32 [.int 1, .int (-2)], .ofValues .string [.str (ascii "ab"), .str []]],
        [.ofValues .int32 [.int 3], .ofValues .string [.str (ascii "c")]]] := by
  have hbatches := fitsHeader_two_batches
  obtain ⟨file, hfile⟩ := @exists_file [ascii "id", ascii "name"] _ _ rfl hbatches (by decide)
  exact (roundTrips_iff rfl (by decide) (by decide) hbatches hfile).mpr ⟨by decide, by decide⟩

/-! ## A long chunk -/

/-- A column of equal strings. -/
def stringsOf (rows length : ℕ) : Column :=
  .ofValues .string (List.replicate rows (.str (List.replicate length 0)))

/-- The chunk of a column of equal strings. -/
theorem chunkBytes_stringsOf (rows : ℕ) {length : ℕ} (hlength : length < 256 ^ 4) :
    ShortStrings (stringsOf rows length) ∧
      (chunkBytes (stringsOf rows length)).length = rows * (4 + length) := by
  have hdata : (stringsOf rows length).data =
      List.replicate rows (.str (List.replicate length 0)) := by
    apply map_conv_eq_self
    intro v hv
    obtain rfl := List.eq_of_mem_replicate hv
    exact ⟨rfl, by rw [List.length_replicate]; exact hlength.trans (by norm_num)⟩
  constructor
  · intro v hv
    rw [hdata] at hv
    obtain rfl := List.eq_of_mem_replicate hv
    rwa [Value.length, List.length_replicate]
  · have htype : (stringsOf rows length).type = .string := rfl
    have hbytes : (valueBytes .string (.str (List.replicate length 0))).length = 4 + length := by
      rw [valueBytes_str (by rwa [List.length_replicate]), List.length_append, length_toLE,
        List.length_replicate]
    rw [chunkBytes, hdata, htype, List.length_flatMap, List.map_replicate, hbytes,
      List.sum_replicate, smul_eq_mul]

/-- The rows fit the header of the one column. -/
theorem fitsHeader_stringsOf (rows : ℕ) {length : ℕ} (hlength : length < 256 ^ 4) :
    ∀ b ∈ [[stringsOf rows length]], FitsHeader [.string] b := by
  intro b hb
  obtain rfl := List.mem_singleton.mp hb
  exact ⟨rfl, by simpa using (chunkBytes_stringsOf rows hlength).1⟩

/-- A file of one column and one batch exists. -/
theorem exists_file_stringsOf (name : Bytes) (rows : ℕ) {length : ℕ} (hlength : length < 256 ^ 4)
    (hsize : rows * (4 + length) < 2 ^ 61) :
    ∃ file : File, writeFile [name] [.string] [[stringsOf rows length]] = .ok file.bytes := by
  refine exists_file rfl (fitsHeader_stringsOf rows hlength) ?_
  have hdata : ([[stringsOf rows length]].flatMap batchBytes).length = rows * (4 + length) := by
    simpa [batchBytes] using (chunkBytes_stringsOf rows hlength).2
  rw [hdata, List.length_singleton]
  omega

/-- A batch of 8192 rows, each a string of `2 ^ 18` bytes, is written but not read back. -/
theorem not_roundTrips :
    ¬ RoundTrips [ascii "s"] [.string] [[stringsOf (2 ^ 13) (2 ^ 18)]] := by
  intro h
  have hlength : 2 ^ 18 < 256 ^ 4 := by norm_num
  obtain ⟨file, hfile⟩ := exists_file_stringsOf (ascii "s") (2 ^ 13) hlength (by norm_num)
  have hmax := (of_roundTrips rfl (by decide) (by decide) (fitsHeader_stringsOf _ hlength) hfile
    h).2 _ List.mem_cons_self _ List.mem_cons_self
  rw [(chunkBytes_stringsOf _ hlength).2, File.preadMax] at hmax
  norm_num at hmax

end ColumnarEngine
