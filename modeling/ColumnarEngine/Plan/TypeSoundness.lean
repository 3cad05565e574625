import ColumnarEngine.Plan.Expressions

/-!
# Type soundness of scalar expressions

`CreateScalarFunction` checks the types of an expression against a schema; the function it creates
casts the columns of a batch without a check. Where the checks leave nothing to the casts
(`ScalarExpression.ChecksCasts`), and only there, the function reads every column at its type and
returns a column of the type that was added to the schema (`isTypeSound_iff`).
-/

namespace ColumnarEngine

open Found

namespace ScalarExpression

/-- A branch of `CASE WHEN` that is a column has the return type. -/
def BranchMatches (schema : Schema) (returnType : ColumnType) : ScalarExpression → Prop
  | columnRef columnName => schema.getColumnTypeByName columnName = .ok returnType
  | _ => True

/-- The columns that `CreateScalarFunction` does not check have the types they are cast to: the
column of `DATE_TRUNC` is a `TIMESTAMP` column, the column branches of `CASE WHEN` have the return
type. -/
def ChecksCasts (schema : Schema) : ScalarExpression → Prop
  | timeTrunc columnName _ _ => schema.getColumnTypeByName columnName = .ok .timestamp
  | caseWhen _ _ _ trueExpr falseExpr returnType =>
      BranchMatches schema returnType trueExpr ∧ BranchMatches schema returnType falseExpr
  | _ => True

end ScalarExpression

/-- A function is type sound for a schema and the schema with its column added: on every batch of
the schema's types it reads each column at its type and returns a column of the type added. -/
def ScalarFunction.IsTypeSound (P : Platform) (s s' : Schema) (f : ScalarFunction) : Prop :=
  ∀ b : RecordBatch, b.WellFormed → b.types = s.types →
    f.WellTyped b.types ∧ ∃ c, f.evaluate P b = some c ∧ s'.types = s.types ++ [c.type]

namespace ScalarExpression

variable {P : Platform} {s s' : Schema}

/-- A resolved branch is well typed when the branch matches. -/
theorem branchWellTyped_iff {constantType : ConstantType} {e : ScalarExpression}
    {branch : ResolvedBranch} {type : ColumnType}
    (h : resolveBranch constantType s e = .ok branch) :
    ScalarFunction.branchWellTyped s.types type branch ↔ BranchMatches s type e := by
  cases e with
  | columnRef columnName =>
      rw [resolveBranch, except_bind_eq_ok] at h
      obtain ⟨ind, hind, h⟩ := h
      obtain rfl := Except.ok.inj h
      exact Schema.types_getElem?_iff hind
  | constant outputName t value =>
      rw [resolveBranch] at h
      split_ifs at h
      obtain rfl := Except.ok.inj h
      exact Iff.rfl
  | extractMinute | timeTrunc | length | addConstant | caseWhen | regexpReplace => cases h

/-- The casts of a created function match when the expression checks them. -/
theorem castsMatch_iff {e : ScalarExpression} {f : ScalarFunction}
    (h : e.createScalarFunction P s = .ok (f, s')) : f.CastsMatch s.types ↔ e.ChecksCasts s := by
  cases e with
  | timeTrunc columnName datePart outputName =>
      obtain ⟨ind, type, part, hlookup, rfl, -⟩ := createScalarFunction_timeTrunc h
      exact Schema.types_getElem?_iff (lookup_eq_ok hlookup).1
  | caseWhen outputName constantType condExpr trueExpr falseExpr returnType =>
      obtain ⟨condFunc, trueResolved, falseResolved, -, htrue, hfalse, rfl, -⟩ :=
        createScalarFunction_caseWhen h
      exact and_congr (branchWellTyped_iff htrue) (branchWellTyped_iff hfalse)
  | extractMinute | length | addConstant | regexpReplace =>
      rw [createScalarFunction, except_bind_eq_ok] at h
      obtain ⟨⟨ind, type⟩, -, h⟩ := h
      obtain ⟨-, h⟩ := throwIf_bind_eq_ok.mp h
      obtain ⟨rfl, rfl⟩ := Prod.mk.inj (Except.ok.inj h)
      exact Iff.rfl
  | constant outputName type value =>
      obtain ⟨t, rfl, -⟩ := createScalarFunction_constant h
      exact Iff.rfl
  | columnRef columnName => cases h

/-- Every schema has a batch without rows. -/
theorem exists_batch (s : Schema) : ∃ b : RecordBatch, b.WellFormed ∧ b.types = s.types := by
  refine ⟨⟨0, none, s.types.map fun t => Column.ofValues t []⟩, ⟨0, ?_, fun _ => rfl⟩, ?_⟩
  · intro c hc
    obtain ⟨t, -, rfl⟩ := List.mem_map.mp hc
    rfl
  · rw [RecordBatch.types, List.map_map]
    exact List.map_id _

/-- A type sound function comes from an expression that checks the casts. -/
theorem checksCasts_of_isTypeSound {e : ScalarExpression} {f : ScalarFunction}
    (h : e.createScalarFunction P s = .ok (f, s')) (hsound : f.IsTypeSound P s s') :
    e.ChecksCasts s := by
  obtain ⟨b, hb, htypes⟩ := exists_batch s
  rw [← castsMatch_iff h, ← htypes]
  exact ScalarFunction.castsMatch_of_wellTyped (hsound b hb htypes).1

/-- **Type soundness**: the function that `CreateScalarFunction` returns is type sound for the child
schema and the schema it leaves when the expression checks the casts, and only then. -/
theorem isTypeSound_iff {e : ScalarExpression} {f : ScalarFunction}
    (h : e.createScalarFunction P s = .ok (f, s')) :
    f.IsTypeSound P s s' ↔ e.ChecksCasts s := by
  refine ⟨checksCasts_of_isTypeSound h, ?_⟩
  intro hchecks b hb htypes
  have hcasts := (castsMatch_iff h).mpr hchecks
  obtain ⟨rfl, hwell⟩ := createScalarFunction_eq_ok h
  have htyped : f.WellTyped b.types := htypes ▸ hwell hcasts
  obtain ⟨c, hc, htype, -⟩ := f.evaluate_sound (P := P) hb htyped
  refine ⟨htyped, c, hc, ?_⟩
  rw [Schema.types_addColumn, htype, ScalarFunction.declaredType_eq hcasts]

/-- The minute of a timestamp. -/
theorem isTypeSound_extractMinute :
    (ScalarFunction.extractMinute 0).IsTypeSound Platform.integral
      ⟨[⟨ascii "t", .timestamp⟩]⟩ ⟨[⟨ascii "t", .timestamp⟩, ⟨ascii "minutes_t", .int32⟩]⟩ :=
  (isTypeSound_iff (e := .extractMinute (ascii "t") []) (by decide)).mpr trivial

/-- `DATE_TRUNC` accepts a `DATE` column and casts it to a `TIMESTAMP` column; `CASE WHEN` accepts a
branch column of another type than it returns. -/
theorem not_isTypeSound_date :
    let dates : Schema := ⟨[⟨ascii "d", .date⟩]⟩
    let numbers : Schema := ⟨[⟨ascii "a", .int32⟩]⟩
    let dateTrunc := timeTrunc (ascii "d") (ascii "month") []
    let caseWhen := caseWhen (ascii "r") .int64 (.eq (ascii "a") .int32 (.int 0))
      (columnRef (ascii "a")) (constant [] .int64 (.int 0)) .int64
    (∃ f s', dateTrunc.createScalarFunction Platform.integral dates = .ok (f, s') ∧
      ¬ f.IsTypeSound Platform.integral dates s') ∧
    ∃ f s', caseWhen.createScalarFunction Platform.integral numbers = .ok (f, s') ∧
      ¬ f.IsTypeSound Platform.integral numbers s' := by
  intro dates numbers dateTrunc caseWhen
  have hdate : dateTrunc.createScalarFunction Platform.integral dates =
      .ok (.timeTrunc 0 .month, dates.addColumn (ascii "date_trunc_d") .date) := by decide
  have hcase : caseWhen.createScalarFunction Platform.integral numbers =
      .ok (.caseWhen (.eq .int32 0 (.int 0)) (.column 0) (.constant .int64 (.int 0)) .int64,
        numbers.addColumn (ascii "r") .int64) := by decide
  refine ⟨⟨_, _, hdate, fun h => ?_⟩, ⟨_, _, hcase, fun h => ?_⟩⟩
  · have htimestamp : dates.getColumnTypeByName (ascii "d") = .ok .timestamp :=
      checksCasts_of_isTypeSound hdate h
    exact absurd htimestamp (by decide)
  · have hint64 : numbers.getColumnTypeByName (ascii "a") = .ok .int64 :=
      (checksCasts_of_isTypeSound hcase h).1
    exact absurd hint64 (by decide)

end ScalarExpression

end ColumnarEngine
