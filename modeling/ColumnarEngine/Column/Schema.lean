import ColumnarEngine.Found.Partial
import ColumnarEngine.Types.Value

/-!
# Schemas

`Schema` is the list of named and typed columns that plan compilation threads through the nodes.
Lookups go by name and find the first match; `deserializeSchema` reads the columns from a file, one
on each line. An error is the text of the exception, without the file and line that
`THROW_RUNTIME_ERROR` puts in front.
-/

namespace ColumnarEngine

open Found

/-- `Field`. -/
structure Field where
  name : Bytes
  type : ColumnType
  deriving DecidableEq, Repr, Inhabited

/-- `Schema`. -/
structure Schema where
  fields : List Field
  deriving DecidableEq, Repr

namespace Schema

instance : Inhabited Schema := ⟨⟨[]⟩⟩

/-- The types of the columns. -/
def types (s : Schema) : List ColumnType := s.fields.map Field.type

/-- The names of the columns. -/
def names (s : Schema) : List Bytes := s.fields.map Field.name

/-- `AddColumn` and `AddField`. -/
def addColumn (s : Schema) (name : Bytes) (type : ColumnType) : Schema :=
  ⟨s.fields ++ [⟨name, type⟩]⟩

/-- `std::getline(stream, s, delim)`: what it reads and what is left, if it reads anything. -/
def getline (delim : UInt8) (stream : Bytes) : Option (Bytes × Bytes) :=
  if stream = [] then none
  else some (stream.takeWhile (· ≠ delim), (stream.dropWhile (· ≠ delim)).drop 1)

/-- The line without a carriage return at its end. -/
def chopReturn (s : Bytes) : Bytes := if s.getLast? = some 13 then s.dropLast else s

/-- `DeserializeField`: a name and a type between commas. -/
def deserializeField (fieldStr : Bytes) : Except Bytes Field :=
  match getline 44 fieldStr with
  | none => .error (ascii "Invalid field format in schema")
  | some (name, rest) =>
      match getline 44 rest with
      | none => .error (ascii "Invalid field format in schema")
      | some (typeStr, _) =>
          match ColumnType.ofName (chopReturn typeStr) with
          | some type => .ok ⟨name, type⟩
          | none => .error (ascii "Unsupported column type in schema: " ++ chopReturn typeStr)

/-- The lines of a file, as `std::getline` reads them. -/
def fileLines (content : Bytes) : List Bytes :=
  let lines := content.splitOn 10
  if lines.getLast? = some [] then lines.dropLast else lines

/-- `DeserializeSchema`, of a file with the given content; empty lines and those that start with
`'#'` are skipped. -/
def deserializeSchema (content : Bytes) : Except Bytes Schema :=
  (((fileLines content).filter fun line => line ≠ [] ∧ line.head? ≠ some 35).mapM
    deserializeField).map Schema.mk

/-- The text of a failed lookup. -/
def notFound (columnName : Bytes) : Bytes :=
  ascii "Column " ++ columnName ++ ascii " not found in schema"

/-- `GetColumnIndexByName`. -/
def getColumnIndexByName (s : Schema) (columnName : Bytes) : Except Bytes ℕ :=
  match s.fields.findIdx? fun f => f.name = columnName with
  | some i => .ok i
  | none => .error (notFound columnName)

/-- `GetColumnTypeByName`. -/
def getColumnTypeByName (s : Schema) (columnName : Bytes) : Except Bytes ColumnType :=
  match s.fields.find? fun f => f.name = columnName with
  | some f => .ok f.type
  | none => .error (notFound columnName)

@[simp] theorem types_addColumn (s : Schema) (name : Bytes) (t : ColumnType) :
    (s.addColumn name t).types = s.types ++ [t] := by
  simp [addColumn, types]

@[simp] theorem names_addColumn (s : Schema) (name : Bytes) (t : ColumnType) :
    (s.addColumn name t).names = s.names ++ [name] := by
  simp [addColumn, names]

/-- The index found is the first one of the name. -/
theorem getColumnIndexByName_eq_ok {s : Schema} {columnName : Bytes} {i : ℕ} :
    s.getColumnIndexByName columnName = .ok i ↔
      i < s.names.length ∧ s.names.idxOf columnName = i := by
  rw [names, ← findIdx?_key_eq_some, getColumnIndexByName]
  cases s.fields.findIdx? fun f => decide (f.name = columnName) <;> simp

/-- The index found is that of a column of the name, the one whose type is looked up. -/
theorem getElem?_of_getColumnIndexByName {s : Schema} {name : Bytes} {i : ℕ}
    (h : s.getColumnIndexByName name = .ok i) :
    ∃ f, s.fields[i]? = some f ∧ f.name = name ∧ s.getColumnTypeByName name = .ok f.type := by
  have hfind := findIdx?_key_eq_some.mpr (getColumnIndexByName_eq_ok.mp h)
  obtain ⟨f, hf, hname, hfound⟩ := exists_of_findIdx?_key hfind
  exact ⟨f, hf, hname, by rw [getColumnTypeByName, hfound]⟩

/-- A name with an index has a type: that of the column at the index. -/
theorem types_getElem?_iff {s : Schema} {name : Bytes} {i : ℕ} {t : ColumnType}
    (hi : s.getColumnIndexByName name = .ok i) :
    s.types[i]? = some t ↔ s.getColumnTypeByName name = .ok t := by
  obtain ⟨f, hf, -, htype⟩ := getElem?_of_getColumnIndexByName hi
  rw [types, List.getElem?_map, hf, htype]
  simp

/-- The two lookups by one name agree: the type is that of the column at the index. -/
theorem types_getElem?_of_lookup {s : Schema} {name : Bytes} {i : ℕ} {t : ColumnType}
    (hi : s.getColumnIndexByName name = .ok i) (ht : s.getColumnTypeByName name = .ok t) :
    s.types[i]? = some t :=
  (types_getElem?_iff hi).mpr ht

end Schema

end ColumnarEngine
