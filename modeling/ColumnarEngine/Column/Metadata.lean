import ColumnarEngine.Types.Value

/-!
# Table metadata

`ColumnMetadata` of `ColumnType.h` and the fields of `MetadataTable`: what the footer of a columnar
file says about its columns and rows.
-/

namespace ColumnarEngine

/-- `ColumnMetadata`: a column and where each of its chunks is in the file. -/
structure ColumnMetadata where
  name : Bytes
  type : ColumnType
  offsets : List ℕ
  sizes : List ℕ
  deriving DecidableEq, Repr, Inhabited

/-- `MetadataTable`. -/
structure MetadataTable where
  columnMeta : List ColumnMetadata
  numRows : ℕ
  deriving DecidableEq, Repr

end ColumnarEngine
