import ColumnarEngine.Io.RoundTrip

/-!
# Reading bytes that no writer wrote

`ParseMetadata` and `StringColumn::ReadFromBuffer` follow the lengths that they read, and check
neither of them against their buffer. Reading stays inside the buffer exactly where the bytes are
an encoding (`Sound`), followed by anything in the case of the metadata: `parsesSafely_iff` and
`readsSafely_iff` say which files and buffers these are.
-/

namespace ColumnarEngine

open Found ColumnarWriter

/-! ## Metadata -/

/-- The bytes of the metadata of columns. -/
def rawMetadataBytes (ms : List RawMetadata) : Bytes :=
  toLE 4 ms.length ++ ms.flatMap RawMetadata.bytes

theorem sound_chunkDecoder :
    chunkDecoder.Sound extentBytes fun e => e.1 < 256 ^ 8 ∧ e.2 < 256 ^ 8 := by
  intro buffer e rest h
  obtain ⟨chunkOffset, mid, hoffset, h⟩ := Decoder.bind_eq_some.mp h
  obtain ⟨chunkSize, mid', hsize, h⟩ := Decoder.bind_eq_some.mp h
  obtain ⟨rfl, rfl⟩ := Decoder.pure_eq_some.mp h
  obtain ⟨hoffset_lt, hbuffer⟩ := Decoder.sound_natLE 8 hoffset
  obtain ⟨hsize_lt, hmid⟩ := Decoder.sound_natLE 8 hsize
  refine ⟨⟨hoffset_lt, hsize_lt⟩, ?_⟩
  unfold extentBytes
  rw [hbuffer, hmid, List.append_assoc]

/-- What is read as the metadata of a column is the encoding of it. -/
theorem sound_columnDecoder : columnDecoder.Sound RawMetadata.bytes RawMetadata.Fits := by
  intro buffer m rest h
  obtain ⟨nameLength, b₁, hnameLength, h⟩ := Decoder.bind_eq_some.mp h
  obtain ⟨name, b₂, hname, h⟩ := Decoder.bind_eq_some.mp h
  obtain ⟨typeCode, b₃, htypeCode, h⟩ := Decoder.bind_eq_some.mp h
  obtain ⟨numChunks, b₄, hnumChunks, h⟩ := Decoder.bind_eq_some.mp h
  obtain ⟨chunks, b₅, hchunks, h⟩ := Decoder.bind_eq_some.mp h
  obtain ⟨rfl, rfl⟩ := Decoder.pure_eq_some.mp h
  obtain ⟨hnameLength_lt, hbuffer⟩ := Decoder.sound_natLE 4 hnameLength
  obtain ⟨rfl, hb₁⟩ := Decoder.sound_bytes nameLength hname
  obtain ⟨htypeCode_lt, hb₂⟩ := Decoder.sound_natLE 1 htypeCode
  obtain ⟨hnumChunks_lt, hb₃⟩ := Decoder.sound_natLE 4 hnumChunks
  obtain ⟨⟨rfl, hextents⟩, hb₄⟩ := sound_chunkDecoder.times numChunks hchunks
  have hzip := List.zip_unzip chunks
  rw [List.unzip_eq_map] at hzip
  refine ⟨⟨hnameLength_lt, htypeCode_lt, ?_, ?_, ?_⟩, ?_⟩
  · rwa [List.length_map]
  · rw [List.length_map, List.length_map]
  · rwa [hzip]
  · unfold RawMetadata.bytes
    rw [hzip, List.length_map, hbuffer, hb₁, hb₂, hb₃, hb₄]
    simp only [List.append_assoc, id]

/-- What is read as metadata is the encoding of them. -/
theorem sound_metadataDecoder : metadataDecoder.Sound rawMetadataBytes
    fun ms => ms.length < 256 ^ 4 ∧ ∀ m ∈ ms, m.Fits := by
  intro buffer ms rest h
  obtain ⟨numCols, mid, hnumCols, hcolumns⟩ := Decoder.bind_eq_some.mp h
  obtain ⟨hnumCols_lt, hbuffer⟩ := Decoder.sound_natLE 4 hnumCols
  obtain ⟨⟨rfl, hfits⟩, hmid⟩ := sound_columnDecoder.times numCols hcolumns
  refine ⟨⟨hnumCols_lt, hfits⟩, ?_⟩
  unfold rawMetadataBytes
  rw [hbuffer, hmid, List.append_assoc]

/-- The bytes start with the metadata of columns. -/
def StartsWithMetadata (bytes : Bytes) : Prop :=
  ∃ ms : List RawMetadata, ms.length < 256 ^ 4 ∧ (∀ m ∈ ms, m.Fits) ∧ rawMetadataBytes ms <+: bytes

/-- Reading metadata stays inside the buffer exactly if the buffer starts with metadata. -/
theorem exists_metadataDecoder_iff (buffer : Bytes) :
    (∃ p, metadataDecoder buffer = some p) ↔ StartsWithMetadata buffer := by
  constructor
  · rintro ⟨⟨ms, rest⟩, h⟩
    obtain ⟨⟨hcount, hfits⟩, hbuffer⟩ := sound_metadataDecoder h
    exact ⟨ms, hcount, hfits, rest, hbuffer.symm⟩
  · rintro ⟨ms, hcount, hfits, rest, rfl⟩
    have hcolumns := Decoder.decodes_times fun m hm => (hfits m hm).decodes
    exact ⟨_, (Decoder.decodes_natLE hcount).bind hcolumns rest⟩

/-! ## The footer -/

namespace File

variable (file : File)

/-- Where the footer starts: the row count, `metadata_start` and the magic. -/
def footerStart : ℕ := file.bytes.length - 20

/-- `metadata_start`. -/
def metadataStart : ℕ := ofLE ((file.bytes.drop (file.bytes.length - 12)).take 8)

/-- The bytes from `metadata_start` to the footer. -/
def metadata : Bytes := (file.bytes.take file.footerStart).drop file.metadataStart

/-- The file is long enough for a footer and ends in the magic. -/
def HasFooter : Prop :=
  24 ≤ file.bytes.length ∧ file.bytes.drop (file.bytes.length - 4) = magic

/-- `ParseMetadata` throws, or copies only from inside its buffer and takes the metadata from
before the footer. -/
def ParsesSafely : Prop :=
  (∃ text, parseMetadata file = .error (.exception text)) ∨
    ∃ table, parseMetadata file = .ok table ∧ file.metadataStart ≤ file.footerStart

variable {file}

theorem footerStart_lt : file.footerStart < 2 ^ 63 := (Nat.sub_le _ _).trans_lt file.small

theorem metadataStart_lt : file.metadataStart < 256 ^ 8 := by
  have hlt := ofLE_lt ((file.bytes.drop (file.bytes.length - 12)).take 8)
  apply hlt.trans_le
  apply Nat.pow_le_pow_right (by norm_num)
  exact List.length_take_le _ _

/-- A file without a footer is refused. -/
theorem parseMetadata_of_not_hasFooter (h : ¬ file.HasFooter) :
    ∃ text, parseMetadata file = .error (.exception text) := by
  unfold HasFooter at h
  unfold parseMetadata
  by_cases hsize : file.bytes.length < 24
  · exact ⟨_, if_pos hsize⟩
  · have hmagic : file.bytes.drop (file.bytes.length - 4) ≠ magic :=
      fun hmagic => h ⟨Nat.le_of_not_lt hsize, hmagic⟩
    exact ⟨_, by rw [if_neg hsize, if_pos hmagic]⟩

/-- The size of the buffer, where the metadata do not start behind the footer and where they do. -/
theorem metadataSize_eq :
    u64 (file.footerStart + (256 ^ 8 - file.metadataStart)) =
      if file.metadataStart ≤ file.footerStart then file.footerStart - file.metadataStart
      else 256 ^ 8 - (file.metadataStart - file.footerStart) := by
  have hfooter := file.footerStart_lt
  have hstart := file.metadataStart_lt
  unfold u64
  split_ifs <;> omega

/-- A file with a footer: a buffer of `2 ^ 63` bytes or more is refused, and a shorter one is
filled from `metadata_start` and read. -/
theorem parseMetadata_of_hasFooter (h : file.HasFooter) {size : ℕ}
    (hsize : u64 (file.footerStart + (256 ^ 8 - file.metadataStart)) = size) :
    parseMetadata file =
      if 2 ^ 63 ≤ size then
        .error (.exception (ascii "cannot create std::vector larger than max_size()"))
      else
        match metadataDecoder (file.seekRead file.metadataStart size) with
        | some (columnMeta, _) =>
            .ok ⟨columnMeta, ofLE ((file.bytes.drop (file.bytes.length - 20)).take 8)⟩
        | none => .error .undefined := by
  obtain ⟨hlength, hmagic⟩ := h
  subst hsize
  unfold parseMetadata
  rw [if_neg (Nat.not_lt.mpr hlength), if_neg (not_not.mpr hmagic)]
  rfl

/-- The buffer is the bytes up to the footer. -/
theorem seekRead_metadata (h : file.metadataStart ≤ file.footerStart) :
    file.seekRead file.metadataStart (file.footerStart - file.metadataStart) = file.metadata := by
  have hlt : file.metadataStart < 2 ^ 63 := h.trans_lt file.footerStart_lt
  have hdata : (file.bytes.drop file.metadataStart).take (file.footerStart - file.metadataStart) =
      file.metadata := List.drop_take.symm
  have hlength : file.metadata.length = file.footerStart - file.metadataStart := by
    have hle : file.footerStart ≤ file.bytes.length := Nat.sub_le _ _
    unfold metadata
    rw [List.length_drop, List.length_take_of_le hle]
  unfold seekRead
  rw [if_pos hlt, hdata]
  dsimp only
  rw [hlength, Nat.sub_self]
  exact List.append_nil _

/-- Before the footer, the metadata are read safely exactly if they are complete. -/
theorem parsesSafely_of_le (h : file.HasFooter) (hle : file.metadataStart ≤ file.footerStart) :
    file.ParsesSafely ↔ StartsWithMetadata file.metadata := by
  have hsize := file.metadataSize_eq
  rw [if_pos hle] at hsize
  have hfits : ¬ 2 ^ 63 ≤ file.footerStart - file.metadataStart := by
    have := file.footerStart_lt
    omega
  have hparse := parseMetadata_of_hasFooter h hsize
  rw [if_neg hfits, seekRead_metadata hle] at hparse
  rw [← exists_metadataDecoder_iff]
  unfold ParsesSafely
  rw [hparse]
  cases metadataDecoder file.metadata with
  | none => simp
  | some p => simp [hle]

/-- Behind the footer, the metadata are refused up to a distance of `2 ^ 63`. Farther away the
buffer is short again, the file has no such position, and a buffer of zeros is read as a table
without columns. -/
theorem parsesSafely_of_lt (h : file.HasFooter) (hlt : file.footerStart < file.metadataStart) :
    file.ParsesSafely ↔ file.metadataStart ≤ file.footerStart + 2 ^ 63 := by
  have hsize := file.metadataSize_eq
  rw [if_neg (Nat.not_le.mpr hlt)] at hsize
  have hstart := file.metadataStart_lt
  have hfooter : 4 ≤ file.footerStart := Nat.le_sub_of_add_le h.1
  have hparse := parseMetadata_of_hasFooter h hsize
  constructor
  · intro hsafe
    by_contra hfar
    have hfits : ¬ 2 ^ 63 ≤ 256 ^ 8 - (file.metadataStart - file.footerStart) := by omega
    obtain ⟨k, hk⟩ : ∃ k, 256 ^ 8 - (file.metadataStart - file.footerStart) = 4 + k :=
      Nat.exists_eq_add_of_le (by omega)
    have hzeros : file.seekRead file.metadataStart (4 + k) =
        rawMetadataBytes [] ++ List.replicate k 0 := by
      unfold seekRead
      rw [if_neg (by omega)]
      dsimp only
      rw [List.length_nil, Nat.sub_zero, List.nil_append, ← List.replicate_append_replicate]
      rfl
    rw [if_neg hfits, hk, hzeros] at hparse
    rcases hsafe with ⟨text, htext⟩ | ⟨table, -, hle⟩
    · have hempty : metadataDecoder (rawMetadataBytes [] ++ List.replicate k 0) =
          some ([], List.replicate k 0) := rfl
      rw [hempty, htext] at hparse
      exact absurd hparse (by simp)
    · omega
  · intro hnear
    rw [if_pos (by omega)] at hparse
    exact Or.inl ⟨_, hparse⟩

/-- **The footer**: `ParseMetadata` throws or stays inside its buffer and before the footer exactly
for a file without a footer, one whose `metadata_start` is behind the footer by at most `2 ^ 63`
bytes, and one that has complete metadata from there on, before the footer. -/
theorem parsesSafely_iff (file : File) :
    file.ParsesSafely ↔
      ¬ file.HasFooter ∨
      (file.footerStart < file.metadataStart ∧
        file.metadataStart ≤ file.footerStart + 2 ^ 63) ∨
      (file.metadataStart ≤ file.footerStart ∧ StartsWithMetadata file.metadata) := by
  by_cases hfooter : file.HasFooter
  · rcases Nat.lt_or_ge file.footerStart file.metadataStart with hlt | hle
    · rw [parsesSafely_of_lt hfooter hlt]
      simp [hfooter, hlt]
    · rw [parsesSafely_of_le hfooter hle]
      simp [hfooter, hle]
  · have hthrows : file.ParsesSafely := Or.inl (parseMetadata_of_not_hasFooter hfooter)
    simp [hfooter, hthrows]

/-- Files of 24 bytes: one with no room for metadata before the footer, where the number of columns
is read past the end of an empty buffer, and one whose `metadata_start` is the last position that
64 bits can say, which is read as a table without columns. -/
theorem not_parsesSafely :
    ¬ ParsesSafely ⟨magic ++ toLE 8 0 ++ toLE 8 4 ++ magic, by decide⟩ ∧
      ¬ ParsesSafely ⟨magic ++ toLE 8 0 ++ toLE 8 (2 ^ 64 - 1) ++ magic, by decide⟩ := by
  have hempty : parseMetadata ⟨magic ++ toLE 8 0 ++ toLE 8 4 ++ magic, by decide⟩ =
      .error .undefined := by decide
  have hfar : parseMetadata ⟨magic ++ toLE 8 0 ++ toLE 8 (2 ^ 64 - 1) ++ magic, by decide⟩ =
      .ok ⟨[], 0⟩ := by decide
  constructor
  · rintro (⟨text, htext⟩ | ⟨table, htable, -⟩)
    · cases hempty.symm.trans htext
    · cases hempty.symm.trans htable
  · rintro (⟨text, htext⟩ | ⟨table, -, hle⟩)
    · cases hfar.symm.trans htext
    · exact absurd hle (by decide)

end File

/-! ## String chunks -/

/-- A string behind its length. -/
def stringRecord (s : Bytes) : Bytes := toLE 4 s.length ++ s

/-- The buffer is strings behind their lengths, one after another. -/
def IsStringChunk (buffer : Bytes) : Prop :=
  ∃ strings : List Bytes, (∀ s ∈ strings, s.length < 256 ^ 4) ∧
    buffer = strings.flatMap stringRecord

/-- `StringColumn::ReadFromBuffer` throws, or reads only inside the buffer and a column that
`WriteBatch` writes as the buffer. -/
def ReadsSafely (buffer : Bytes) : Prop :=
  (∃ text, readFromBuffer .string buffer = .error (.exception text)) ∨
    ∃ c, readFromBuffer .string buffer = .ok c ∧ columnBytes .string c = .ok (buffer, buffer.length)

theorem flatMap_valueBytes_str {strings : List Bytes} (h : ∀ s ∈ strings, s.length < 256 ^ 4) :
    (strings.map Value.str).flatMap (valueBytes .string) = strings.flatMap stringRecord := by
  rw [List.flatMap_map]
  exact List.flatMap_congr fun s hs => valueBytes_str (h s hs) .string

/-- What is read as a string is the string behind its length. -/
theorem sound_stringDecoder :
    stringDecoder.Sound (valueBytes .string) fun v => ∃ s, v = .str s ∧ s.length < 256 ^ 4 := by
  intro buffer v rest h
  obtain ⟨length, mid, hlength, h⟩ := Decoder.bind_eq_some.mp h
  obtain ⟨str, mid', hstr, h⟩ := Decoder.bind_eq_some.mp h
  obtain ⟨rfl, rfl⟩ := Decoder.pure_eq_some.mp h
  obtain ⟨hlength_lt, hbuffer⟩ := Decoder.sound_natLE 4 hlength
  obtain ⟨rfl, hmid⟩ := Decoder.sound_bytes length hstr
  refine ⟨⟨str, rfl, hlength_lt⟩, ?_⟩
  rw [valueBytes_str hlength_lt, hbuffer, hmid, List.append_assoc]
  rfl

/-- Values that are short strings come from a list of strings. -/
theorem exists_map_str {vs : List Value} (h : ∀ v ∈ vs, ∃ s, v = .str s ∧ s.length < 256 ^ 4) :
    ∃ strings : List Bytes, (∀ s ∈ strings, s.length < 256 ^ 4) ∧ vs = strings.map Value.str := by
  induction vs with
  | nil => exact ⟨[], List.forall_mem_nil _, rfl⟩
  | cons v vs ih =>
      obtain ⟨⟨s, rfl, hs⟩, hvs⟩ := List.forall_mem_cons.mp h
      obtain ⟨strings, hstrings, rfl⟩ := ih hvs
      exact ⟨s :: strings, List.forall_mem_cons.mpr ⟨hs, hstrings⟩, rfl⟩

/-- A chunk of strings is read, and written as it was. -/
theorem IsStringChunk.reads {buffer : Bytes} (h : IsStringChunk buffer) :
    ∃ c, readFromBuffer .string buffer = .ok c ∧
      columnBytes .string c = .ok (buffer, buffer.length) := by
  obtain ⟨strings, hstrings, rfl⟩ := h
  rw [← flatMap_valueBytes_str hstrings]
  have hshort : ∀ v ∈ strings.map Value.str, v.length < 256 ^ 4 := by
    intro v hv
    obtain ⟨s, hs, rfl⟩ := List.mem_map.mp hv
    exact hstrings s hs
  have htyped : ∀ v ∈ strings.map Value.str, v.HasType .string := by
    intro v hv
    obtain ⟨s, hs, rfl⟩ := List.mem_map.mp hv
    exact ⟨rfl, (hstrings s hs).trans (by norm_num)⟩
  have hdata : (Column.ofValues .string (strings.map Value.str)).data = strings.map Value.str :=
    map_conv_eq_self htyped
  have hfits : Fits .string (Column.ofValues .string (strings.map Value.str)) := by
    refine ⟨rfl, ?_⟩
    unfold ShortStrings
    rwa [hdata]
  have hwrite := columnBytes_eq_ok hfits
  unfold chunkBytes at hwrite
  rw [hdata] at hwrite
  refine ⟨_, ?_, hwrite⟩
  unfold readFromBuffer
  rw [if_pos rfl, many_stringDecoder htyped hshort]

/-- **String chunks**: `ReadFromBuffer` never throws, and stays inside the buffer and gives back its
strings exactly if the buffer is a chunk of complete strings. -/
theorem readsSafely_iff (buffer : Bytes) : ReadsSafely buffer ↔ IsStringChunk buffer := by
  constructor
  · intro h
    unfold ReadsSafely readFromBuffer at h
    rw [if_pos rfl] at h
    cases hmany : Decoder.many stringDecoder buffer.length buffer with
    | none =>
        rw [hmany] at h
        rcases h with ⟨text, htext⟩ | ⟨c, hc, -⟩
        · cases htext
        · cases hc
    | some vs =>
        obtain ⟨hvs, hbuffer⟩ := sound_stringDecoder.many hmany
        obtain ⟨strings, hstrings, rfl⟩ := exists_map_str hvs
        rw [flatMap_valueBytes_str hstrings] at hbuffer
        exact ⟨strings, hstrings, hbuffer⟩
  · intro h
    exact Or.inr h.reads

/-- A length of five and one byte, and a length cut off. -/
theorem not_readsSafely : ¬ ReadsSafely [5, 0, 0, 0, 97] ∧ ¬ ReadsSafely [1] := by
  have hstring : readFromBuffer .string [5, 0, 0, 0, 97] = .error .undefined := by decide
  have hlength : readFromBuffer .string [1] = .error .undefined := by decide
  constructor
  · rintro (⟨text, htext⟩ | ⟨c, hc, -⟩)
    · cases hstring.symm.trans htext
    · cases hstring.symm.trans hc
  · rintro (⟨text, htext⟩ | ⟨c, hc, -⟩)
    · cases hlength.symm.trans htext
    · cases hlength.symm.trans hc

end ColumnarEngine
