import ColumnarEngine.Column.Schema
import ColumnarEngine.Exec.AggregationFunctions
import ColumnarEngine.Found.Partial

/-!
# Aggregate expressions

`AggregateExpression` and its six subclasses: an aggregate by column name, turned into an
aggregation function against the schema of its input. The two `Create…AggregationFunction` methods
of a subclass make the same choice of template, column and type, so there is one `create`.
-/

namespace ColumnarEngine

/-- `SumResultTrait`: the class of the sum's state and `kOutTypeEnum`. -/
def sumResultTrait : ColumnType → ColumnType × ColumnType
  | .int16 => (.int32, .int32)
  | .int32 => (.int64, .int64)
  | .int64 => (.int128, .int128)
  | .int128 => (.int128, .int128)
  | .float => (.double, .double)
  | .double => (.longdouble, .longdouble)
  | .longdouble => (.longdouble, .longdouble)
  | t => (t, .int64)

/-- The subclasses of `AggregateExpression`. -/
inductive AggregateClass
  | count | distinctCount | min | max | sum | avg
  deriving DecidableEq, Repr

/-- `AggregateExpression`. -/
structure AggregateExpression where
  cls : AggregateClass
  columnName : Bytes
  outputName : Bytes
  deriving DecidableEq, Repr

namespace AggregateExpression

/-- `CollectRequiredColumns`: the columns appended. -/
def requiredColumns (e : AggregateExpression) : List Bytes :=
  if e.columnName ≠ [] ∧ e.columnName ≠ ascii "*" then [e.columnName] else []

/-- The name given to the output when none is set. -/
def defaultName (e : AggregateExpression) : Bytes :=
  match e.cls with
  | .count => e.columnName
  | .distinctCount => ascii "distinct_count_" ++ e.columnName
  | .min => ascii "min_" ++ e.columnName
  | .max => ascii "max_" ++ e.columnName
  | .sum => ascii "sum_" ++ e.columnName
  | .avg => ascii "avg_" ++ e.columnName

/-- `GetOutputName`. -/
def getOutputName (e : AggregateExpression) : Bytes :=
  if e.outputName.isEmpty then e.defaultName else e.outputName

/-- The column types `SUM` and `AVG` reject. -/
def isRejected : ColumnType → Bool
  | .string | .char | .date | .timestamp => true
  | _ => false

/-- The function for a column found at `ind` with type `t`, and the type added to the output
schema. -/
def functionFor (cls : AggregateClass) (ind : ℕ) (t : ColumnType) :
    Except Bytes (AggregationFunction × ColumnType) :=
  match cls with
  | .count => .ok (⟨.count .int64, ind, .int64⟩, .int64)
  | .distinctCount => .ok (⟨.distinctCount t .int64, ind, .int64⟩, .int64)
  | .min => .ok (⟨.typed t t .min, ind, t⟩, t)
  | .max => .ok (⟨.typed t t .max, ind, t⟩, t)
  | .sum =>
      if isRejected t then .error (ascii "SUM operation is not supported for this column type")
      else
        let trait := sumResultTrait t
        .ok (⟨.typed t trait.1 .sum, ind, trait.2⟩, trait.2)
  | .avg =>
      if isRejected t then .error (ascii "AVG operation is not supported for non-numeric columns")
      else .ok (⟨.avg t .longdouble (sumResultTrait t).1, ind, .longdouble⟩, .longdouble)

/-- The lookups by `GetName()`. `COUNT` makes none, and its function reads no column. -/
def lookup (e : AggregateExpression) (childSchema : Schema) : Except Bytes (ℕ × ColumnType) :=
  if e.cls = .count then .ok (0, .int64)
  else do
    let ind ← childSchema.getColumnIndexByName e.columnName
    let t ← childSchema.getColumnTypeByName e.columnName
    return (ind, t)

/-- `CreateGlobalAggregationFunction` and `CreateGroupedAggregationFunction`. -/
def create (e : AggregateExpression) (childSchema outputSchema : Schema) :
    Except Bytes (AggregationFunction × Schema) := do
  let (ind, t) ← e.lookup childSchema
  let (f, outType) ← functionFor e.cls ind t
  return (f, outputSchema.addColumn e.getOutputName outType)

/-- A lookup found a column of the name and its type. -/
theorem lookup_eq_ok {e : AggregateExpression} {child : Schema} {ind : ℕ} {t : ColumnType}
    (h : e.lookup child = .ok (ind, t)) (hcls : e.cls ≠ .count) :
    child.getColumnIndexByName e.columnName = .ok ind ∧
      child.getColumnTypeByName e.columnName = .ok t := by
  rw [lookup, if_neg hcls, Found.except_bind_eq_ok] at h
  obtain ⟨ind', hind, h⟩ := h
  rw [Found.except_bind_eq_ok] at h
  obtain ⟨t', ht, h⟩ := h
  obtain ⟨rfl, rfl⟩ : ind' = ind ∧ t' = t := by simpa [pure, Except.pure] using h
  exact ⟨hind, ht⟩

/-- What a successful `create` has done: the function is the one for the column found, and its
output column is added to the schema. -/
theorem create_eq_ok {e : AggregateExpression} {child out out' : Schema} {f : AggregationFunction}
    (h : e.create child out = .ok (f, out')) :
    ∃ ind t outType, e.lookup child = .ok (ind, t) ∧ functionFor e.cls ind t = .ok (f, outType) ∧
      out' = out.addColumn e.getOutputName outType := by
  rw [create, Found.except_bind_eq_ok] at h
  obtain ⟨⟨ind, t⟩, hlookup, h⟩ := h
  rw [Found.except_bind_eq_ok] at h
  obtain ⟨⟨f', outType⟩, hf, h⟩ := h
  obtain ⟨rfl, rfl⟩ : f' = f ∧ out.addColumn e.getOutputName outType = out' := by
    simpa [pure, Except.pure] using h
  exact ⟨ind, t, outType, hlookup, hf, rfl⟩

/-- The type added to the schema is the function's declared type, and the declared type is the
output class: the builder of `Finalize` is cast to its own class. -/
theorem functionFor_columnType {cls : AggregateClass} {ind : ℕ} {t outType : ColumnType}
    {f : AggregationFunction} (h : functionFor cls ind t = .ok (f, outType)) :
    f.columnType = outType ∧ f.columnType = f.kind.output := by
  cases cls <;> cases t <;> simp [functionFor, isRejected, sumResultTrait] at h <;>
    (obtain ⟨rfl, rfl⟩ := h; exact ⟨rfl, rfl⟩)

/-- The input class is the type of the column, at its index. -/
theorem functionFor_input {cls : AggregateClass} {ind : ℕ} {t outType : ColumnType}
    {f : AggregationFunction} (h : functionFor cls ind t = .ok (f, outType)) :
    f.columnIndex = ind ∧ ∀ t', f.kind.input = some t' → cls ≠ .count ∧ t' = t := by
  cases cls <;> cases t <;> simp [functionFor, isRejected, sumResultTrait] at h <;>
    (obtain ⟨rfl, rfl⟩ := h; simp [AggregateKind.input, eq_comm])

end AggregateExpression

end ColumnarEngine
