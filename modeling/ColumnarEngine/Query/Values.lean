import ColumnarEngine.Plan.FilterPredicate
import ColumnarEngine.Query.Stages

/-!
# Expressions as values of named columns

What the expressions of a plan say, by column names and before any function is created: the value
that a scalar expression adds to a row, and the value of an aggregate over some rows. The functions
created against a schema compute these values, where the casts match and without floating point.
-/

namespace ColumnarEngine

open Found

namespace Schema

/-- The type of the column of a name, of the first one if there are several. -/
def typeOf (s : Schema) (columnName : Bytes) : ColumnType :=
  s.types.getD (s.names.idxOf columnName) default

/-- The values of the column of a name. -/
def columnOf (s : Schema) (rows : List Row) (columnName : Bytes) : List Value :=
  rows.map fun row => s.valueOf row columnName

variable {s : Schema} {columnName : Bytes} {ind : ℕ} {type : ColumnType}

/-- A lookup by name reads the value of the name. -/
theorem getD_eq_valueOf (h : s.getColumnIndexByName columnName = .ok ind) (row : Row) :
    row.getD ind default = s.valueOf row columnName := by
  rw [valueOf, (getColumnIndexByName_eq_ok.mp h).2]

/-- The two lookups by a name find its type. -/
theorem typeOf_eq (hi : s.getColumnIndexByName columnName = .ok ind)
    (ht : s.getColumnTypeByName columnName = .ok type) : s.typeOf columnName = type := by
  rw [typeOf, (getColumnIndexByName_eq_ok.mp hi).2, List.getD_eq_getElem?_getD,
    types_getElem?_of_lookup hi ht, Option.getD_some]

end Schema

/-! ## Filters -/

instance (value target : Value) : Decidable (value.HasSubstring target) :=
  decidable_of_iff _ (Value.contains_iff value target)

instance (target value : Value) (cmp : Comparison) : Decidable (cmp.Holds target value) :=
  match cmp with
  | .notEq => inferInstanceAs (Decidable (value ≠ target))
  | .eq => inferInstanceAs (Decidable (value = target))
  | .greater => inferInstanceAs (Decidable (target < value))
  | .greaterEq => inferInstanceAs (Decidable (target ≤ value))
  | .lessEq => inferInstanceAs (Decidable (value ≤ target))
  | .like => inferInstanceAs (Decidable (value.HasSubstring target))
  | .notLike => inferInstanceAs (Decidable (¬ value.HasSubstring target))

/-- Whether a row satisfies a formula. -/
def FilterExpression.decideHolds (s : Schema) (row : Row) :
    (e : FilterExpression) → Decidable (e.Holds s row)
  | compare cmp columnName _ value =>
      inferInstanceAs (Decidable (cmp.Holds value (s.valueOf row columnName)))
  | and left right => @instDecidableAnd _ _ (left.decideHolds s row) (right.decideHolds s row)
  | or left right => @instDecidableOr _ _ (left.decideHolds s row) (right.decideHolds s row)

instance (s : Schema) (row : Row) (e : FilterExpression) : Decidable (e.Holds s row) :=
  e.decideHolds s row

/-! ## Scalar expressions -/

namespace ScalarExpression

variable (P : Platform)

/-- The type of the column that the expression adds. -/
def typeIn (s : Schema) : ScalarExpression → ColumnType
  | extractMinute _ _ => .int32
  | timeTrunc _ _ _ => .timestamp
  | length _ _ => .int64
  | constant _ type _ => type.columnType
  | addConstant columnName _ _ _ => s.typeOf columnName
  | columnRef columnName => s.typeOf columnName
  | caseWhen _ _ _ _ _ returnType => returnType
  | regexpReplace _ _ _ _ => .string

/-- The value of a branch of `CASE WHEN`. -/
def branchIn (s : Schema) (row : Row) (returnType : ColumnType) : ScalarExpression → Value
  | columnRef columnName => s.valueOf row columnName
  | constant _ type value => Value.store P type.columnType returnType value
  | _ => default

/-- The value of the expression for a row, before it is stored in a column of its type. -/
def valueIn (s : Schema) (row : Row) : ScalarExpression → Value
  | extractMinute columnName _ => .int (Timestamp.extractMinute (s.valueOf row columnName).toInt)
  | timeTrunc columnName datePart _ =>
      match parseTimeUnit datePart with
      | .ok part => .int (Timestamp.truncate (s.valueOf row columnName).toInt part)
      | .error _ => default
  | length columnName _ => .int (s.valueOf row columnName).length
  | constant _ _ value => value
  | addConstant columnName type value _ =>
      Value.sum P (s.typeOf columnName) (s.valueOf row columnName)
        (Value.store P type.columnType (s.typeOf columnName) value)
  | columnRef columnName => s.valueOf row columnName
  | caseWhen _ _ condExpr trueExpr falseExpr returnType =>
      if condExpr.Holds s row then trueExpr.branchIn P s row returnType
      else falseExpr.branchIn P s row returnType
  | regexpReplace columnName pattern replacement _ =>
      (s.valueOf row columnName).globalReplace P pattern replacement

/-- No condition has a floating constant. -/
def IsExact : ScalarExpression → Prop
  | caseWhen _ _ condExpr _ _ _ => condExpr.IsExact
  | _ => True

variable {P} {s s' : Schema}

/-- A resolved branch has the value of its expression. -/
theorem valueAt_of_resolveBranch {constantType : ConstantType} {type : ColumnType}
    {e : ScalarExpression} {branch : ResolvedBranch}
    (h : resolveBranch constantType s e = .ok branch) (row : Row) :
    branch.valueAt P type row = e.branchIn P s row type := by
  cases e with
  | columnRef columnName =>
      rw [resolveBranch, except_bind_eq_ok] at h
      obtain ⟨ind, hind, h⟩ := h
      obtain rfl := Except.ok.inj h
      exact Schema.getD_eq_valueOf hind row
  | constant outputName t value =>
      rw [resolveBranch] at h
      split_ifs at h
      obtain rfl := Except.ok.inj h
      rfl
  | extractMinute | timeTrunc | length | addConstant | caseWhen | regexpReplace => cases h

/-- **A created function computes the value of its expression**, in a column of its type. -/
theorem valueAt_of_create {e : ScalarExpression} {f : ScalarFunction}
    (h : e.createScalarFunction P s = .ok (f, s')) (he : e.IsExact) :
    f.returnType = e.typeIn s ∧ ∀ row, f.valueAt P row = e.valueIn P s row := by
  cases e with
  | extractMinute columnName outputName | length columnName outputName
  | regexpReplace columnName pattern replacement outputName =>
      rw [createScalarFunction, except_bind_eq_ok] at h
      obtain ⟨⟨ind, type⟩, hlookup, h⟩ := h
      obtain ⟨-, h⟩ := throwIf_bind_eq_ok.mp h
      obtain ⟨rfl, -⟩ := Prod.mk.inj (Except.ok.inj h)
      refine ⟨rfl, fun row => ?_⟩
      rw [valueIn, ← Schema.getD_eq_valueOf (lookup_eq_ok hlookup).1]
      rfl
  | timeTrunc columnName datePart outputName =>
      rw [createScalarFunction, except_bind_eq_ok] at h
      obtain ⟨⟨ind, type⟩, hlookup, h⟩ := h
      obtain ⟨-, h⟩ := throwIf_bind_eq_ok.mp h
      rw [except_bind_eq_ok] at h
      obtain ⟨part, hpart, h⟩ := h
      obtain ⟨rfl, -⟩ := Prod.mk.inj (Except.ok.inj h)
      refine ⟨rfl, fun row => ?_⟩
      rw [valueIn, hpart, ← Schema.getD_eq_valueOf (lookup_eq_ok hlookup).1]
      rfl
  | constant outputName type value =>
      cases type with
      | char => cases h
      | int16 | int32 | int64 | int128 | float | double | longdouble | stdString | cString =>
          obtain ⟨rfl, -⟩ := Prod.mk.inj (Except.ok.inj h)
          exact ⟨rfl, fun _ => rfl⟩
  | addConstant columnName type value outputName =>
      rw [createScalarFunction, except_bind_eq_ok] at h
      obtain ⟨⟨ind, t⟩, hlookup, h⟩ := h
      obtain ⟨-, h⟩ := throwIf_bind_eq_ok.mp h
      obtain ⟨rfl, -⟩ := Prod.mk.inj (Except.ok.inj h)
      obtain ⟨hind, htype⟩ := lookup_eq_ok hlookup
      obtain rfl := Schema.typeOf_eq hind htype
      refine ⟨rfl, fun row => ?_⟩
      rw [valueIn, ← Schema.getD_eq_valueOf hind]
      rfl
  | columnRef columnName => cases h
  | caseWhen outputName constantType condExpr trueExpr falseExpr returnType =>
      obtain ⟨condFunc, trueResolved, falseResolved, hcond, htrue, hfalse, rfl, -⟩ :=
        createScalarFunction_caseWhen h
      refine ⟨rfl, fun row => ?_⟩
      have hpasses := FilterExpression.passes_iff (P := P) hcond he row
      rw [valueIn, ScalarFunction.valueAt, valueAt_of_resolveBranch htrue,
        valueAt_of_resolveBranch hfalse]
      simp only [hpasses]

end ScalarExpression

/-- The schema with the columns that the expressions add; each sees those added before it. -/
def Schema.withScalars (P : Platform) (s : Schema) (exprs : List ScalarExpression) : Schema :=
  exprs.foldl (fun s e => s.addColumn (e.getOutputName P) (e.typeIn s)) s

/-- The row with the values that the expressions add. -/
def withValues (P : Platform) : Schema → List ScalarExpression → Row → Row
  | _, [], row => row
  | s, e :: exprs, row =>
      withValues P (s.addColumn (e.getOutputName P) (e.typeIn s)) exprs
        (row ++ [Value.conv (e.typeIn s) (e.valueIn P s row)])

/-- **A created projection** appends to a row the values of its expressions. -/
theorem foldl_appendTo_of_createScalars {P : Platform} {exprs : List ScalarExpression}
    {s s' : Schema} {fs : List ScalarFunction} (h : createScalars P exprs s = .ok (fs, s'))
    (hexact : ∀ e ∈ exprs, e.IsExact) (hcasts : TransformOperator.ScalarCastsMatch s.types fs) :
    s' = s.withScalars P exprs ∧
      ∀ row, fs.foldl (ScalarFunction.appendTo P) row = withValues P s exprs row := by
  induction exprs generalizing s fs with
  | nil =>
      obtain ⟨rfl, rfl⟩ := Prod.mk.inj (Except.ok.inj h)
      exact ⟨rfl, fun _ => rfl⟩
  | cons e exprs ih =>
      rw [createScalars, except_bind_eq_ok] at h
      obtain ⟨⟨f, s₁⟩, hf, h⟩ := h
      rw [except_bind_eq_ok] at h
      obtain ⟨⟨fs', s₂⟩, hfs, h⟩ := h
      obtain ⟨rfl, rfl⟩ := Prod.mk.inj (Except.ok.inj h)
      obtain ⟨hcast, hcasts⟩ := hcasts
      obtain ⟨htype, hvalue⟩ :=
        ScalarExpression.valueAt_of_create hf (hexact e List.mem_cons_self)
      obtain ⟨rfl, -⟩ := ScalarExpression.createScalarFunction_eq_ok hf
      rw [ScalarFunction.declaredType_eq hcast, htype] at hfs
      rw [htype] at hcasts
      obtain ⟨hschema, hrows⟩ := ih hfs (fun e' he' => hexact e' (.tail e he'))
        (by rwa [Schema.types_addColumn])
      refine ⟨hschema, fun row => ?_⟩
      rw [List.foldl_cons, hrows, withValues, ScalarFunction.appendTo, htype, hvalue]

/-! ## Aggregates -/

namespace AggregateExpression

/-- The type of the column that the aggregate adds. -/
def typeIn (s : Schema) (e : AggregateExpression) : ColumnType :=
  match e.cls with
  | .count | .distinctCount => .int64
  | .min | .max => s.typeOf e.columnName
  | .sum => (sumResultTrait (s.typeOf e.columnName)).2
  | .avg => .longdouble

/-- The average of integers: the platform's division of their sum by their number. -/
def average (P : Platform) (state : ColumnType) (values : List Value) : Value :=
  if 0 < wrap 8 values.length then
    .int (P.computeAvg state (wrap state.elemSize (exactSum values)) (wrap 8 values.length))
  else Value.zero .longdouble

/-- The value of the aggregate over some rows. Counts and sums are taken modulo the width of their
type; without a row an extremum is zero. -/
def Aggregates (P : Platform) (s : Schema) (rows : List Row) (e : AggregateExpression)
    (v : Value) : Prop :=
  let type := s.typeOf e.columnName
  let values := s.columnOf rows e.columnName
  match e.cls with
  | .count => v = .int (wrap 8 rows.length)
  | .distinctCount => v = .int (wrap 8 values.toFinset.card)
  | .min => if rows = [] then v = Value.zero type else Operation.min.Extremum values v
  | .max => if rows = [] then v = Value.zero type else Operation.max.Extremum values v
  | .sum => v = .int (wrap (e.typeIn s).elemSize (exactSum values))
  | .avg => v = Value.conv .longdouble (average P (sumResultTrait type).1 values)

variable {P : Platform} {s : Schema} {rows : List Row} {f : AggregationFunction}

/-- The function reads the values of the column it was created for. -/
theorem map_argument {columnName : Bytes} {ind : ℕ} {t : ColumnType}
    (hind : s.getColumnIndexByName columnName = .ok ind) (hf : f.columnIndex = ind)
    (hinput : f.kind.input = some t) :
    (rows : Multiset Row).map f.argument = s.columnOf rows columnName := by
  rw [Multiset.map_coe, Schema.columnOf]
  congr 1
  apply List.map_congr_left
  intro row _
  rw [AggregationFunction.argument, hinput, hf, ← Schema.getD_eq_valueOf hind]

/-- The extremum of a state is stored as it is. -/
theorem valueOf_extremum {t : ColumnType} {op : Operation} {ind : ℕ} (hop : op ≠ .sum)
    {values : Multiset Value}
    (hrep : (AggregateKind.typed t t op).Represents
      (AggregationFunction.onePass P ⟨.typed t t op, ind, t⟩ rows) values)
    (hempty : rows = [] ↔ values = 0) :
    if rows = [] then AggregationFunction.valueOf P ⟨.typed t t op, ind, t⟩ rows = Value.zero t
    else op.Extremum values (AggregationFunction.valueOf P ⟨.typed t t op, ind, t⟩ rows) := by
  have hstate : (AggregationFunction.onePass P ⟨.typed t t op, ind, t⟩ rows).value.HasType t ∧
      (values ≠ 0 → op.Extremum values
        (AggregationFunction.onePass P ⟨.typed t t op, ind, t⟩ rows).value) := by
    cases op with
    | sum => exact absurd rfl hop
    | max | min => exact hrep.2
  have hvalue : AggregationFunction.valueOf P ⟨.typed t t op, ind, t⟩ rows =
      (AggregationFunction.onePass P ⟨.typed t t op, ind, t⟩ rows).value :=
    Value.conv_eq_self hstate.1
  rw [hvalue]
  split_ifs with hnil
  · subst hnil
    rfl
  · exact hstate.2 fun hzero => hnil (hempty.mpr hzero)

/-- **A created function aggregates as its expression says**, in a column of its type. -/
theorem aggregates_of_create {e : AggregateExpression} {out out' : Schema}
    (h : e.create s out = .ok (f, out')) (hplaced : f.Placed s.types) (hexact : f.kind.Exact)
    (hrows : ∀ r ∈ rows, List.Forall₂ Value.HasType r s.types) :
    out' = out.addColumn e.getOutputName (e.typeIn s) ∧
      e.Aggregates P s rows (f.valueOf P rows) := by
  have hrep := AggregationFunction.onePass_represents (P := P) ⟨hplaced, hexact⟩ hrows
  obtain ⟨ind, t, outType, hlookup, hfor, rfl⟩ := create_eq_ok h
  by_cases hcount : e.cls = .count
  · rw [hcount] at hfor
    obtain ⟨rfl, rfl⟩ := Prod.mk.inj (Except.ok.inj hfor)
    refine ⟨by rw [typeIn, hcount], ?_⟩
    have hstate : (AggregationFunction.onePass P ⟨.count .int64, ind, .int64⟩ rows : ℤ) =
        wrap 8 rows.length := by
      simpa [AggregateKind.Represents] using hrep
    simp only [Aggregates, hcount]
    rw [← hstate]
    exact Value.conv_eq_self ⟨by simp, hstate ▸ inWidth_wrap _ _⟩
  · obtain ⟨hind, htype⟩ := lookup_eq_ok hlookup hcount
    obtain rfl := Schema.typeOf_eq hind htype
    generalize htypeOf : s.typeOf e.columnName = t at *
    cases hcls : e.cls with
    | count => exact absurd hcls hcount
    | distinctCount =>
        rw [hcls] at hfor
        obtain ⟨rfl, rfl⟩ := Prod.mk.inj (Except.ok.inj hfor)
        rw [map_argument hind rfl rfl] at hrep
        refine ⟨by rw [typeIn, hcls], ?_⟩
        simp only [Aggregates, hcls]
        obtain ⟨hnodup, hmem⟩ := hrep
        have hset : (s.columnOf rows e.columnName).toFinset =
            List.toFinset
              (AggregationFunction.onePass P ⟨.distinctCount t .int64, ind, .int64⟩ rows) := by
          ext v
          rw [List.mem_toFinset, List.mem_toFinset]
          exact (hmem v).symm
        rw [hset, List.toFinset_card_of_nodup hnodup]
        rfl
    | min | max =>
        rw [hcls] at hfor
        obtain ⟨rfl, rfl⟩ := Prod.mk.inj (Except.ok.inj hfor)
        rw [map_argument hind rfl rfl] at hrep
        refine ⟨by rw [typeIn, hcls, htypeOf], ?_⟩
        simp only [Aggregates, hcls, htypeOf]
        exact valueOf_extremum (by decide) hrep (by simp [Schema.columnOf])
    | sum =>
        rw [hcls, functionFor] at hfor
        split_ifs at hfor
        obtain ⟨rfl, rfl⟩ := Prod.mk.inj (Except.ok.inj hfor)
        rw [map_argument hind rfl rfl] at hrep
        have htypeIn : e.typeIn s = (sumResultTrait t).2 := by rw [typeIn, hcls, htypeOf]
        refine ⟨htypeIn ▸ rfl, ?_⟩
        simp only [Aggregates, hcls, htypeIn]
        obtain ⟨-, hvalue⟩ := hrep
        obtain houtput : (sumResultTrait t).2 = (sumResultTrait t).1 := hplaced.output
        rw [AggregationFunction.valueOf, AggregateKind.result, hvalue, houtput]
        exact Value.conv_eq_self ⟨hexact.2.2, inWidth_wrap _ _⟩
    | avg =>
        rw [hcls, functionFor] at hfor
        split_ifs at hfor
        obtain ⟨rfl, rfl⟩ := Prod.mk.inj (Except.ok.inj hfor)
        rw [map_argument hind rfl rfl] at hrep
        refine ⟨by rw [typeIn, hcls], ?_⟩
        simp only [Aggregates, hcls, htypeOf]
        obtain ⟨hsum, hcard⟩ := hrep
        rw [AggregationFunction.valueOf, AggregateKind.result, average, hsum, hcard,
          Multiset.coe_card]
        rfl

end AggregateExpression

/-- **A created list of aggregates** has the columns and the values of its expressions. -/
theorem aggregates_of_createAggregates {P : Platform} {exprs : List AggregateExpression}
    {s out out' : Schema} {fs : List AggregationFunction}
    (h : createAggregates s exprs out = .ok (fs, out')) (hplaced : ∀ f ∈ fs, f.Placed s.types)
    (hexact : ∀ f ∈ fs, f.kind.Exact) {rows : List Row}
    (hrows : ∀ r ∈ rows, List.Forall₂ Value.HasType r s.types) :
    out' = ⟨out.fields ++ exprs.map fun e => ⟨e.getOutputName, e.typeIn s⟩⟩ ∧
      List.Forall₂ (AggregateExpression.Aggregates P s rows) exprs
        (fs.map fun f => f.valueOf P rows) := by
  induction exprs generalizing out fs with
  | nil =>
      obtain ⟨rfl, rfl⟩ := Prod.mk.inj (Except.ok.inj h)
      exact ⟨by simp, .nil⟩
  | cons e exprs ih =>
      rw [createAggregates, except_bind_eq_ok] at h
      obtain ⟨⟨f, out₁⟩, hf, h⟩ := h
      rw [except_bind_eq_ok] at h
      obtain ⟨⟨fs', out₂⟩, hfs, h⟩ := h
      obtain ⟨rfl, rfl⟩ := Prod.mk.inj (Except.ok.inj h)
      obtain ⟨rfl, hvalue⟩ := AggregateExpression.aggregates_of_create hf
        (hplaced f List.mem_cons_self) (hexact f List.mem_cons_self) hrows
      obtain ⟨hout, hvalues⟩ := ih hfs (fun g hg => hplaced g (.tail f hg))
        fun g hg => hexact g (.tail f hg)
      refine ⟨hout.trans ?_, .cons hvalue hvalues⟩
      simp [Schema.addColumn]

end ColumnarEngine
