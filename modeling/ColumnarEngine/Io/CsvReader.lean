import ColumnarEngine.Io.CsvScan

/-!
# The CSV reader

`io/CsvReader.h` and `io/CsvReader.cpp`: `ReadHeader` takes the first row for the types and names of
the columns and remembers their number; `ReadRow` adds the next row to a container, or says that
there is none, and throws if the number of its fields is not the one remembered. An error is the
text of the exception.

The results of the calls depend on the text that is still unread, not on how much of it is in the
buffer (`observe_calls`).
-/

namespace ColumnarEngine

open Found

/-- `','`, the delimiter unless another is given. -/
def comma : UInt8 := 44

/-- `CsvReader`. -/
structure CsvReader where
  tokenizer : CsvTokenizer
  expectedColumns : ℕ
  deriving DecidableEq

/-- The text of an invalid header token. -/
def invalidHeaderToken (token : Bytes) : Bytes := ascii "Invalid header token: " ++ token

/-- The name and the type of a column, from a token `TYPE:name` of the header. -/
def parseHeaderToken (token : Bytes) : Except Bytes (Bytes × ColumnType) :=
  match token.findIdx? (· = 58) with
  | none => .error (invalidHeaderToken token)
  | some colonPos =>
      match ColumnType.ofName (token.take colonPos) with
      | none => .error (invalidHeaderToken token)
      | some type => .ok (token.drop (colonPos + 1), type)

/-- The text of a row of another width than the header. -/
def widthMismatch (expected got row : ℕ) : Bytes :=
  ascii s!"CSV row width mismatch: expected {expected}, got {got} row: {row}"

namespace CsvReader

/-- The constructor, for a file of the given content. -/
def ofContent {bufferSize : ℕ} (h : 0 < bufferSize) (content : Bytes) (delim : UInt8) : CsvReader :=
  ⟨.ofContent h content delim, 0⟩

/-- `ReadHeader`: the names and types of the columns. -/
def readHeader (reader : CsvReader) :
    Option (Except Bytes (List (Bytes × ColumnType)) × CsvReader) := do
  let (t, rawHeader) ← reader.tokenizer.getNextRow .empty
  let tokens ← (List.range rawHeader.width).mapM rawHeader.getString
  return (tokens.mapM parseHeaderToken, ⟨t.resetLineFlag, rawHeader.width⟩)

/-- `ReadRow(row)`: whether there was a row. -/
def readRow (reader : CsvReader) (row : VectorOfStrings2D) :
    Option (Except Bytes Bool × CsvReader × VectorOfStrings2D) :=
  if reader.tokenizer.eofReached then some (.ok false, reader, row)
  else
    (reader.tokenizer.getNextRow row).map fun (t, row) =>
      if row.columnsInLine = 0 ∧ t.eofReached then (.ok false, { reader with tokenizer := t }, row)
      else if reader.expectedColumns ≠ 0 ∧ row.columnsInLine ≠ reader.expectedColumns then
        (.error (widthMismatch reader.expectedColumns row.columnsInLine row.height),
          { reader with tokenizer := t }, row)
      else (.ok true, { reader with tokenizer := t.resetLineFlag }, row)

end CsvReader

end ColumnarEngine
