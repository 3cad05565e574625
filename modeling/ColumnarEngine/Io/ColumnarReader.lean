import ColumnarEngine.Found.Codec
import ColumnarEngine.Io.ColumnarWriter

/-!
# The columnar reader

`parseMetadata` finds the metadata by counting back from the end of the file and copies it out of a
buffer; a copy past the end of the buffer is undefined behaviour. `getColumnData` reads a chunk with
one `pread` and decodes it as the type of the column says. A file is bytes, fewer than `2 ^ 63` as a
`std::streamoff` counts them.
-/

namespace ColumnarEngine

open Found

/-! ## Files -/

/-- A file on disk. -/
structure File where
  bytes : Bytes
  /-- The size is a `std::streamoff`. -/
  small : bytes.length < 2 ^ 63

namespace File

/-- The most that one `pread` transfers on Linux. -/
def preadMax : ℕ := 0x7ffff000

/-- `pread`: an offset that is no `off_t` is refused, and near the end of the file fewer bytes are
read. -/
def pread (file : File) (count offset : ℕ) : Option Bytes :=
  if offset < 2 ^ 63 then some ((file.bytes.drop offset).take (min count preadMax)) else none

/-- `seekg(position)` and `read(data, count)` into a buffer of zeros. Seeking to a position that is
no `std::streamoff` fails, and then nothing is read. -/
def seekRead (file : File) (position count : ℕ) : Bytes :=
  let data := if position < 2 ^ 63 then (file.bytes.drop position).take count else []
  data ++ List.replicate (count - data.length) 0

end File

/-! ## The metadata -/

/-- A `ColumnMetadata` as it is read: the type is the code found in the file. -/
structure RawMetadata where
  name : Bytes
  typeCode : ℕ
  offsets : List ℕ
  sizes : List ℕ
  deriving DecidableEq, Repr

/-- A `MetadataTable` as it is read. -/
structure RawTable where
  columnMeta : List RawMetadata
  numRows : ℕ
  deriving DecidableEq, Repr

namespace RawTable

/-- The names of the columns. -/
def names (table : RawTable) : List Bytes := table.columnMeta.map RawMetadata.name

/-- The types of the columns; `none` for a code of no type. -/
def types (table : RawTable) : List (Option ColumnType) :=
  table.columnMeta.map fun m => ColumnType.ofCode m.typeCode

end RawTable

/-- The two `read_from_buf` calls of a chunk. -/
def chunkDecoder : Decoder (ℕ × ℕ) := do
  let chunkOffset ← Decoder.natLE 8
  let chunkSize ← Decoder.natLE 8
  return (chunkOffset, chunkSize)

/-- The `read_from_buf` calls of a column. -/
def columnDecoder : Decoder RawMetadata := do
  let nameLength ← Decoder.natLE 4
  let name ← Decoder.bytes nameLength
  let typeCode ← Decoder.natLE 1
  let numChunks ← Decoder.natLE 4
  let chunks ← chunkDecoder.times numChunks
  return { name, typeCode, offsets := chunks.map Prod.fst, sizes := chunks.map Prod.snd }

/-- All `read_from_buf` calls. -/
def metadataDecoder : Decoder (List RawMetadata) := do
  let numCols ← Decoder.natLE 4
  columnDecoder.times numCols

/-- `ParseMetadata`. The size of the metadata is computed in 64 bits, and a vector of `2 ^ 63` or
more bytes is refused by its constructor. -/
def parseMetadata (file : File) : Except Fault RawTable :=
  let fileSize := file.bytes.length
  if fileSize < 24 then
    .error (.exception (ascii "File is too small to contain a valid footer"))
  else if file.bytes.drop (fileSize - 4) ≠ magic then
    .error (.exception (ascii "Invalid file footer magic"))
  else
    let numRows := ofLE ((file.bytes.drop (fileSize - 20)).take 8)
    let metadataStart := ofLE ((file.bytes.drop (fileSize - 12)).take 8)
    let metadataSize := u64 (fileSize - 20 + (256 ^ 8 - metadataStart))
    if 2 ^ 63 ≤ metadataSize then
      .error (.exception (ascii "cannot create std::vector larger than max_size()"))
    else
      match metadataDecoder (file.seekRead metadataStart metadataSize) with
      | some (columnMeta, _) => .ok { columnMeta, numRows }
      | none => .error .undefined

/-! ## Chunks -/

/-- `ReadRawColumnData`. The reference to the column's metadata is taken before the index is
checked. -/
def readRawColumnData (file : File) (table : RawTable) (columnIndex chunkIndex : ℕ) :
    Except Fault Bytes :=
  match table.columnMeta[columnIndex]? with
  | none => .error .undefined
  | some m =>
      if m.offsets.length ≤ chunkIndex then .error (.exception (ascii "Chunk index out of range"))
      else
        let offset := m.offsets.getD chunkIndex 0
        let size := m.sizes.getD chunkIndex 0
        if 2 ^ 63 ≤ size then .error (.exception (ascii "vector::_M_default_append"))
        else
          match file.pread size offset with
          | none => .error (.exception (ascii "Failed to read data"))
          | some data =>
              if data.length = size then .ok data
              else .error (.exception (ascii "Failed to read data"))

/-- The body of the loop of `StringColumn::ReadFromBuffer`. -/
def stringDecoder : Decoder Value := do
  let length ← Decoder.natLE 4
  let str ← Decoder.bytes length
  return .str str

/-- `ReadFromBuffer` of the class of the type. Strings are read until the buffer is used up, a
length or a string past its end is undefined; the numbers, among them `CHAR` of width one, fill the
buffer exactly. -/
def readFromBuffer (type : ColumnType) (buffer : Bytes) : Except Fault Column :=
  if type = .string then
    match Decoder.many stringDecoder buffer.length buffer with
    | some vs => .ok (Column.ofValues .string vs)
    | none => .error .undefined
  else if buffer.length % type.elemSize ≠ 0 then
    .error (.exception (ascii "Raw buffer size is not aligned with type size"))
  else
    let n := buffer.length / type.elemSize
    .ok (Column.ofValues type ((decodeInts type.elemSize n buffer).map .int))

/-- `GetColumnData`; `MakeColumn` refuses a code of no type. -/
def getColumnData (file : File) (table : RawTable) (columnIndex chunkIndex : ℕ) :
    Except Fault Column := do
  let rawData ← readRawColumnData file table columnIndex chunkIndex
  match (table.columnMeta[columnIndex]?).bind fun m => ColumnType.ofCode m.typeCode with
  | none => .error (.exception (ascii "Unknown column type"))
  | some type => readFromBuffer type rawData

end ColumnarEngine
