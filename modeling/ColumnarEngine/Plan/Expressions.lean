import ColumnarEngine.Column.Schema
import ColumnarEngine.Exec.ScalarFunctions

/-!
# Filter and scalar expressions

`FilterExpressions.h` and `ScalarExpressions.h`: expressions over column names, turned into
functions over column indices against a schema. A scalar expression also adds its output column to
the schema. The function created from a filter expression reads columns of the classes it casts
to; one created from a scalar expression does so except where the code casts without a check of the
type, and `CastsMatch` says where that is.

A constant has the C++ type of the template argument of its expression. A filter compares a column
with a constant of exactly its `ValueType`, which for `DATE` and `TIMESTAMP` is that of an integer
column.
-/

namespace ColumnarEngine

open Found

/-- The C++ types of constants. -/
inductive ConstantType
  | int16 | int32 | int64 | int128 | float | double | longdouble | char | stdString | cString
  deriving DecidableEq, Repr

namespace ConstantType

/-- A column type whose elements are represented like the constants of the C++ type. -/
def columnType : ConstantType → ColumnType
  | int16 => .int16
  | int32 => .int32
  | int64 => .int64
  | int128 => .int128
  | float => .float
  | double => .double
  | longdouble => .longdouble
  | char => .char
  | stdString => .string
  | cString => .string

/-- `std::is_constructible_v<std::string_view, T>`. -/
def isString : ConstantType → Bool
  | stdString | cString => true
  | _ => false

/-- `ColumnTypeTraits<T>::kType`. There is none for `char`: such a `Literal` does not compile. -/
def kType : ConstantType → Option ColumnType
  | char | stdString | cString => none
  | t => some t.columnType

end ConstantType

/-- `ColumnClass::ValueType`. -/
def ColumnType.valueType : ColumnType → ConstantType
  | int16 => .int16
  | int32 => .int32
  | int64 => .int64
  | int128 => .int128
  | float => .float
  | double => .double
  | longdouble => .longdouble
  | char => .char
  | string => .stdString
  | date => .int32
  | timestamp => .int64

/-- `THROW_NOT_IMPLEMENTED`. -/
def notImplemented : Bytes := ascii "not implemented"

/-- `if (c) THROW_RUNTIME_ERROR(msg)`. -/
def throwIf (c : Prop) [Decidable c] (msg : Bytes) : Except Bytes Unit :=
  if c then .error msg else .ok ()

/-- The code after a check runs if the check did not throw. -/
theorem throwIf_bind_eq_ok {c : Prop} [Decidable c] {msg : Bytes} {α : Type}
    {k : Unit → Except Bytes α} {a : α} : throwIf c msg >>= k = .ok a ↔ ¬ c ∧ k () = .ok a := by
  unfold throwIf
  split_ifs with hc
  · simp [bind, Except.bind, hc]
  · simp [bind, Except.bind, hc]

/-! ## Filter expressions -/

/-- `FilterExpression`. The constant of `LIKE` is `value_`, the pattern without its first and last
character. -/
inductive FilterExpression
  | compare (cmp : Comparison) (columnName : Bytes) (valueType : ConstantType) (value : Value)
  | and (left right : FilterExpression)
  | or (left right : FilterExpression)
  deriving DecidableEq, Repr

namespace FilterExpression

/-- `NotEqFilterExpression<ValueType>`. -/
def notEq := compare .notEq

/-- `EqFilterExpression<ValueType>`. -/
def eq := compare .eq

/-- `GreaterFilterExpression<ValueType>`. -/
def greater := compare .greater

/-- `GreaterEqFilterExpression<ValueType>`. -/
def greaterEq := compare .greaterEq

/-- `LessEqFilterExpression<ValueType>`. -/
def lessEq := compare .lessEq

/-- `LikeExpression` with `value_`. -/
def like (columnName value : Bytes) := compare .like columnName .stdString (.str value)

/-- `NotLikeExpression` with `value_`. -/
def notLike (columnName value : Bytes) := compare .notLike columnName .stdString (.str value)

/-- `CollectRequiredColumns`: the columns appended. -/
def requiredColumns : FilterExpression → List Bytes
  | compare _ columnName _ _ => if columnName.isEmpty then [] else [columnName]
  | and left right => left.requiredColumns ++ right.requiredColumns
  | or left right => left.requiredColumns ++ right.requiredColumns

/-- `CreateFilterFunction`. -/
def createFilterFunction (childSchema : Schema) : FilterExpression → Except Bytes FilterFunction
  | compare cmp columnName valueType value => do
      let ind ← childSchema.getColumnIndexByName columnName
      let columnType ← childSchema.getColumnTypeByName columnName
      if columnType.valueType = valueType then
        return .compare cmp columnType ind value
      else throw notImplemented
  | and left right => do
      let l ← left.createFilterFunction childSchema
      let r ← right.createFilterFunction childSchema
      return .and l r
  | or left right => do
      let l ← left.createFilterFunction childSchema
      let r ← right.createFilterFunction childSchema
      return .or l r

/-- What the creation of a comparison has found. -/
theorem createFilterFunction_compare {s : Schema} {cmp : Comparison} {columnName : Bytes}
    {valueType : ConstantType} {value : Value} {f : FilterFunction}
    (h : (compare cmp columnName valueType value).createFilterFunction s = .ok f) :
    ∃ ind t, s.getColumnIndexByName columnName = .ok ind ∧
      s.getColumnTypeByName columnName = .ok t ∧ t.valueType = valueType ∧
      f = .compare cmp t ind value := by
  rw [createFilterFunction, except_bind_eq_ok] at h
  obtain ⟨ind, hind, h⟩ := h
  rw [except_bind_eq_ok] at h
  obtain ⟨t, ht, h⟩ := h
  split_ifs at h with htype
  exact ⟨ind, t, hind, ht, htype, (Except.ok.inj h).symm⟩

/-- The parts of a conjunction or disjunction that was created. -/
theorem createFilterFunction_bind {s : Schema} {left right : FilterExpression}
    {node : FilterFunction → FilterFunction → FilterFunction} {f : FilterFunction}
    (h : (do
      let l ← left.createFilterFunction s
      let r ← right.createFilterFunction s
      return node l r) = Except.ok f) :
    ∃ l r, left.createFilterFunction s = .ok l ∧ right.createFilterFunction s = .ok r ∧
      f = node l r := by
  rw [except_bind_eq_ok] at h
  obtain ⟨l, hl, h⟩ := h
  rw [except_bind_eq_ok] at h
  obtain ⟨r, hr, h⟩ := h
  exact ⟨l, r, hl, hr, (Except.ok.inj h).symm⟩

/-- The function created reads columns of their classes. -/
theorem createFilterFunction_wellTyped {e : FilterExpression} {s : Schema} {f : FilterFunction}
    (h : e.createFilterFunction s = .ok f) : f.WellTyped s.types := by
  induction e generalizing f with
  | compare cmp columnName valueType value =>
      obtain ⟨ind, t, hind, htype, -, rfl⟩ := createFilterFunction_compare h
      exact Schema.types_getElem?_of_lookup hind htype
  | and left right ihl ihr =>
      obtain ⟨l, r, hl, hr, rfl⟩ := createFilterFunction_bind h
      exact ⟨ihl hl, ihr hr⟩
  | or left right ihl ihr =>
      obtain ⟨l, r, hl, hr, rfl⟩ := createFilterFunction_bind h
      exact ⟨ihl hl, ihr hr⟩

end FilterExpression

/-! ## Scalar expressions -/

/-- `ScalarExpression`. -/
inductive ScalarExpression
  | extractMinute (columnName outputName : Bytes)
  | timeTrunc (columnName datePart outputName : Bytes)
  | length (columnName outputName : Bytes)
  | constant (outputName : Bytes) (type : ConstantType) (constant : Value)
  | addConstant (columnName : Bytes) (type : ConstantType) (constant : Value) (outputName : Bytes)
  | columnRef (columnName : Bytes)
  | caseWhen (outputName : Bytes) (constantType : ConstantType) (condExpr : FilterExpression)
      (trueExpr falseExpr : ScalarExpression) (returnType : ColumnType)
  | regexpReplace (columnName pattern replacement outputName : Bytes)
  deriving DecidableEq, Repr

/-- `std::to_string` of a constant. -/
def Value.toString (P : Platform) (t : ColumnType) : Value → Bytes
  | .int n => if t.isFloating then P.showFloat t n else ascii s!"{n}"
  | .str s => s

namespace ScalarExpression

/-- `output_name_.empty() ? fallback : output_name_`. -/
def nameOr (outputName fallback : Bytes) : Bytes :=
  if outputName.isEmpty then fallback else outputName

variable (P : Platform)

/-- `GetOutputName`. -/
def getOutputName : ScalarExpression → Bytes
  | extractMinute columnName outputName => nameOr outputName (ascii "minutes_" ++ columnName)
  | timeTrunc columnName _ outputName => nameOr outputName (ascii "date_trunc_" ++ columnName)
  | length columnName outputName => nameOr outputName (ascii "length_" ++ columnName)
  | constant outputName _ _ => outputName
  | addConstant columnName type value outputName =>
      nameOr outputName (columnName ++ ascii "_plus_" ++ value.toString P type.columnType)
  | columnRef columnName => columnName
  | caseWhen outputName _ _ _ _ _ => outputName
  | regexpReplace columnName _ _ outputName => nameOr outputName columnName

/-- `if (!column_name_.empty()) required_columns.push_back(column_name_)`. -/
def requireColumn (columnName : Bytes) : List Bytes :=
  if columnName.isEmpty then [] else [columnName]

/-- `CollectRequiredColumns`: the columns appended. -/
def requiredColumns : ScalarExpression → List Bytes
  | extractMinute columnName _ => requireColumn columnName
  | timeTrunc columnName _ _ => requireColumn columnName
  | length columnName _ => requireColumn columnName
  | constant _ _ _ => []
  | addConstant columnName _ _ _ => requireColumn columnName
  | columnRef columnName => requireColumn columnName
  | caseWhen _ _ condExpr trueExpr falseExpr _ =>
      condExpr.requiredColumns ++ trueExpr.requiredColumns ++ falseExpr.requiredColumns
  | regexpReplace columnName _ _ _ => requireColumn columnName

/-- `GetColumnIndexByName` and `GetColumnTypeByName`. -/
def lookup (schema : Schema) (columnName : Bytes) : Except Bytes (ℕ × ColumnType) := do
  let ind ← schema.getColumnIndexByName columnName
  let type ← schema.getColumnTypeByName columnName
  return (ind, type)

/-- `resolve_branch` of `CASE WHEN` with constants of the given type. -/
def resolveBranch (constantType : ConstantType) (schema : Schema) :
    ScalarExpression → Except Bytes ResolvedBranch
  | columnRef columnName => do
      let ind ← schema.getColumnIndexByName columnName
      return .column ind
  | constant _ type value =>
      if type = constantType then .ok (.constant type.columnType value)
      else .error (ascii "CASE WHEN branch must be ColRef or Literal")
  | _ => .error (ascii "CASE WHEN branch must be ColRef or Literal")

/-- `CreateScalarFunction(child_schema)`: the function and the schema with the new column. -/
def createScalarFunction (childSchema : Schema) (e : ScalarExpression) :
    Except Bytes (ScalarFunction × Schema) :=
  let added := fun type => childSchema.addColumn (e.getOutputName P) type
  match e with
  | extractMinute columnName _ => do
      let (ind, type) ← lookup childSchema columnName
      throwIf (type ≠ .timestamp) (ascii "ExtractMinute requires TIMESTAMP column")
      return (.extractMinute ind, added .int32)
  | timeTrunc columnName datePart _ => do
      let (ind, type) ← lookup childSchema columnName
      throwIf (type ≠ .timestamp ∧ type ≠ .date)
        (ascii "DATE_TRUNC requires TIMESTAMP or DATE column")
      let part ← parseTimeUnit datePart
      return (.timeTrunc ind part, added type)
  | length columnName _ => do
      let (ind, type) ← lookup childSchema columnName
      throwIf (type ≠ .string) (ascii "Length requires STRING column")
      return (.length ind, added .int64)
  | constant _ type value =>
      if type.isString then .ok (.constant .string value, added .string)
      else
        match type.kType with
        | some t => .ok (.constant t value, added t)
        | none => .error notImplemented
  | addConstant columnName constantType value _ => do
      let (ind, type) ← lookup childSchema columnName
      throwIf (type = .string ∨ type = .char ∨ type = .date ∨ type = .timestamp)
        (ascii "AddConst is not supported for non-numeric columns")
      return (.addConstant type ind (Value.store P constantType.columnType type value), added type)
  | columnRef _ =>
      .error (ascii "ColumnRefExpression is a marker and should not be evaluated directly.")
  | caseWhen _ constantType condExpr trueExpr falseExpr returnType => do
      let condFunc ← condExpr.createFilterFunction childSchema
      let trueResolved ← resolveBranch constantType childSchema trueExpr
      let falseResolved ← resolveBranch constantType childSchema falseExpr
      if decide (returnType = .string) = constantType.isString then
        return (.caseWhen condFunc trueResolved falseResolved returnType, added returnType)
      else throw (ascii "Unreachable: type mismatch between column and constant")
  | regexpReplace columnName pattern replacement _ => do
      let (ind, type) ← lookup childSchema columnName
      throwIf (type ≠ .string) (ascii "REGEXP_REPLACE requires STRING column")
      return (.regexpReplace ind pattern replacement, added .string)

end ScalarExpression

/-! ## What a created function casts and declares -/

namespace ScalarFunction

/-- Where a created function casts a column without a check of its type: `DATE_TRUNC` accepts a
`DATE` column and casts it to a `TIMESTAMP` column; `CASE WHEN` casts its branch columns to the
return type. -/
def CastsMatch (types : List ColumnType) : ScalarFunction → Prop
  | timeTrunc colInd _ => types[colInd]? = some .timestamp
  | caseWhen _ trueBranch falseBranch type =>
      branchWellTyped types type trueBranch ∧ branchWellTyped types type falseBranch
  | _ => True

/-- The type the expression of a function declares: for `DATE_TRUNC` that of the column it reads. -/
def declaredType (types : List ColumnType) : ScalarFunction → ColumnType
  | timeTrunc colInd _ => types.getD colInd default
  | f => f.returnType

/-- Where the casts match, the column has the declared type. -/
theorem declaredType_eq {types : List ColumnType} {f : ScalarFunction} (h : f.CastsMatch types) :
    f.declaredType types = f.returnType := by
  cases f with
  | timeTrunc colInd part =>
      obtain ⟨hlt, htype⟩ := List.getElem?_eq_some_iff.mp h
      rw [declaredType, List.getD_eq_getElem _ _ hlt, htype]
      rfl
  | extractMinute | length | constant | addConstant | caseWhen | regexpReplace => rfl

/-- A well-typed function's casts match. -/
theorem castsMatch_of_wellTyped {types : List ColumnType} {f : ScalarFunction}
    (h : f.WellTyped types) : f.CastsMatch types := by
  cases f with
  | timeTrunc colInd part => exact h
  | caseWhen cond trueBranch falseBranch type => exact h.2
  | extractMinute | length | constant | addConstant | regexpReplace => trivial

end ScalarFunction

namespace ScalarExpression

variable {P : Platform} {s s' : Schema}

/-- The lookups found a column by its name. -/
theorem lookup_eq_ok {columnName : Bytes} {ind : ℕ} {type : ColumnType}
    (h : lookup s columnName = .ok (ind, type)) :
    s.getColumnIndexByName columnName = .ok ind ∧ s.getColumnTypeByName columnName = .ok type := by
  rw [lookup, except_bind_eq_ok] at h
  obtain ⟨ind', hind, h⟩ := h
  rw [except_bind_eq_ok] at h
  obtain ⟨type', htype, h⟩ := h
  obtain ⟨rfl, rfl⟩ := Prod.mk.inj (Except.ok.inj h)
  exact ⟨hind, htype⟩

/-- The column that the lookups found has the type. -/
theorem types_of_lookup {columnName : Bytes} {ind : ℕ} {type : ColumnType}
    (h : lookup s columnName = .ok (ind, type)) : s.types[ind]? = some type :=
  Schema.types_getElem?_of_lookup (lookup_eq_ok h).1 (lookup_eq_ok h).2

/-- What the creation of a `DATE_TRUNC` has found. -/
theorem createScalarFunction_timeTrunc {columnName datePart outputName : Bytes}
    {f : ScalarFunction}
    (h : (timeTrunc columnName datePart outputName).createScalarFunction P s = .ok (f, s')) :
    ∃ ind type part, lookup s columnName = .ok (ind, type) ∧ f = .timeTrunc ind part ∧
      s' = s.addColumn ((timeTrunc columnName datePart outputName).getOutputName P) type := by
  rw [createScalarFunction, except_bind_eq_ok] at h
  obtain ⟨⟨ind, type⟩, hlookup, h⟩ := h
  obtain ⟨-, h⟩ := throwIf_bind_eq_ok.mp h
  rw [except_bind_eq_ok] at h
  obtain ⟨part, -, h⟩ := h
  obtain ⟨rfl, rfl⟩ := Prod.mk.inj (Except.ok.inj h)
  exact ⟨ind, type, part, hlookup, rfl, rfl⟩

/-- What the creation of a `CASE WHEN` has found. -/
theorem createScalarFunction_caseWhen {outputName : Bytes} {constantType : ConstantType}
    {condExpr : FilterExpression} {trueExpr falseExpr : ScalarExpression} {returnType : ColumnType}
    {f : ScalarFunction}
    (h : (caseWhen outputName constantType condExpr trueExpr falseExpr
      returnType).createScalarFunction P s = .ok (f, s')) :
    ∃ condFunc trueResolved falseResolved, condExpr.createFilterFunction s = .ok condFunc ∧
      resolveBranch constantType s trueExpr = .ok trueResolved ∧
      resolveBranch constantType s falseExpr = .ok falseResolved ∧
      f = .caseWhen condFunc trueResolved falseResolved returnType ∧
      s' = s.addColumn ((caseWhen outputName constantType condExpr trueExpr falseExpr
        returnType).getOutputName P) returnType := by
  rw [createScalarFunction, except_bind_eq_ok] at h
  obtain ⟨condFunc, hcond, h⟩ := h
  rw [except_bind_eq_ok] at h
  obtain ⟨trueResolved, htrue, h⟩ := h
  rw [except_bind_eq_ok] at h
  obtain ⟨falseResolved, hfalse, h⟩ := h
  split_ifs at h
  obtain ⟨rfl, rfl⟩ := Prod.mk.inj (Except.ok.inj h)
  exact ⟨condFunc, trueResolved, falseResolved, hcond, htrue, hfalse, rfl, rfl⟩

/-- The creation of a literal has its type. -/
theorem createScalarFunction_constant {outputName : Bytes} {type : ConstantType} {value : Value}
    {f : ScalarFunction}
    (h : (constant outputName type value).createScalarFunction P s = .ok (f, s')) :
    ∃ t, f = .constant t value ∧
      s' = s.addColumn ((constant outputName type value).getOutputName P) t := by
  simp only [createScalarFunction] at h
  split_ifs at h
  · obtain ⟨rfl, rfl⟩ := Prod.mk.inj (Except.ok.inj h)
    exact ⟨_, rfl, rfl⟩
  · split at h
    · obtain ⟨rfl, rfl⟩ := Prod.mk.inj (Except.ok.inj h)
      exact ⟨_, rfl, rfl⟩
    · cases h

/-- **What a successful `CreateScalarFunction` has done**: it has added one column of the name and
the type the expression declares, and the function reads columns of the schema, of their classes
where the casts match. -/
theorem createScalarFunction_eq_ok {e : ScalarExpression} {f : ScalarFunction}
    (h : e.createScalarFunction P s = .ok (f, s')) :
    s' = s.addColumn (e.getOutputName P) (f.declaredType s.types) ∧
      (f.CastsMatch s.types → f.WellTyped s.types) := by
  cases e with
  | extractMinute columnName outputName =>
      rw [createScalarFunction, except_bind_eq_ok] at h
      obtain ⟨⟨ind, type⟩, hlookup, h⟩ := h
      obtain ⟨htype, h⟩ := throwIf_bind_eq_ok.mp h
      obtain ⟨rfl, rfl⟩ := Prod.mk.inj (Except.ok.inj h)
      exact ⟨rfl, fun _ => (types_of_lookup hlookup).trans (congrArg some (not_ne_iff.mp htype))⟩
  | timeTrunc columnName datePart outputName =>
      obtain ⟨ind, type, part, hlookup, rfl, rfl⟩ := createScalarFunction_timeTrunc h
      have hget := types_of_lookup hlookup
      exact ⟨by simp [ScalarFunction.declaredType, List.getD, hget], id⟩
  | length columnName outputName =>
      rw [createScalarFunction, except_bind_eq_ok] at h
      obtain ⟨⟨ind, type⟩, hlookup, h⟩ := h
      obtain ⟨htype, h⟩ := throwIf_bind_eq_ok.mp h
      obtain ⟨rfl, rfl⟩ := Prod.mk.inj (Except.ok.inj h)
      exact ⟨rfl, fun _ => (types_of_lookup hlookup).trans (congrArg some (not_ne_iff.mp htype))⟩
  | constant outputName type value =>
      obtain ⟨t, rfl, rfl⟩ := createScalarFunction_constant h
      exact ⟨rfl, fun _ => trivial⟩
  | addConstant columnName type value outputName =>
      rw [createScalarFunction, except_bind_eq_ok] at h
      obtain ⟨⟨ind, type⟩, hlookup, h⟩ := h
      obtain ⟨-, h⟩ := throwIf_bind_eq_ok.mp h
      obtain ⟨rfl, rfl⟩ := Prod.mk.inj (Except.ok.inj h)
      exact ⟨rfl, fun _ => types_of_lookup hlookup⟩
  | columnRef columnName => cases h
  | caseWhen outputName constantType condExpr trueExpr falseExpr returnType =>
      obtain ⟨condFunc, trueResolved, falseResolved, hcond, -, -, rfl, rfl⟩ :=
        createScalarFunction_caseWhen h
      exact ⟨rfl, fun hcasts => ⟨FilterExpression.createFilterFunction_wellTyped hcond, hcasts⟩⟩
  | regexpReplace columnName pattern replacement outputName =>
      rw [createScalarFunction, except_bind_eq_ok] at h
      obtain ⟨⟨ind, type⟩, hlookup, h⟩ := h
      obtain ⟨htype, h⟩ := throwIf_bind_eq_ok.mp h
      obtain ⟨rfl, rfl⟩ := Prod.mk.inj (Except.ok.inj h)
      exact ⟨rfl, fun _ => (types_of_lookup hlookup).trans (congrArg some (not_ne_iff.mp htype))⟩

end ScalarExpression

end ColumnarEngine
