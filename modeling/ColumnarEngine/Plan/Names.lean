import ColumnarEngine.Exec.ScalarCorrect
import ColumnarEngine.Plan.Layout

/-!
# The names of a plan's columns

`PlanNode.columnNames` are the names of the schema that a node leaves, read off the plan
(`names_of_buildPipelines`). A `ScalarNode` appends the names of its expressions to those of its
child, and a lookup finds the first match, so a name of an expression refers to its column exactly
if the child has no column of the name (`projectedNames_iff`).
-/

namespace ColumnarEngine

open Found

/-! ## Names of the schema -/

/-- The names of the schema after `BuildPipelines` of the node. -/
def PlanNode.columnNames (P : Platform) : PlanNode → Option (List Bytes) → List Bytes
  | scan columnNames tableMeta, required => scanColumns columnNames tableMeta required
  | aggregate _ groupByColumns aggregateExpressions, _ =>
      groupByColumns ++ aggregateExpressions.map AggregateExpression.getOutputName
  | filter child filterExpression, required =>
      child.columnNames P (some (sortUnique (filterExpression.requiredColumns ++ required.getD [])))
  | orderBy child orderByColumns _ _, required =>
      child.columnNames P (some (sortUnique (required.getD [] ++ orderByColumns.map Prod.fst)))
  | limit child _, required => child.columnNames P required
  | scalar child scalarExpressions, required =>
      child.columnNames P (some (scalarColumns P required scalarExpressions)) ++
        scalarExpressions.map (ScalarExpression.getOutputName P)
  | drop child columnsToDrop, required =>
      (child.columnNames P required).filter fun name => !columnsToDrop.contains name
  | reorder _ desiredOrder, _ => desiredOrder

/-- A loop that looks up a field of each name leaves the names. -/
theorem names_of_mapM {γ : Type} {f : Bytes → Except Bytes γ} {g : γ → Bytes} {names : List Bytes}
    {found : List γ} (hf : ∀ name c, f name = .ok c → g c = name) (h : names.mapM f = .ok found) :
    found.map g = names := by
  have hall := forall₂_of_mapM_ok h
  rw [← List.map_id names]
  exact map_eq_map_of_forall₂ (hall.imp fun name c hc => hf name c hc)

/-- The fields of a scan have the names looked up. -/
theorem name_of_scanField {tableMeta : MetadataTable} {name : Bytes} {field : Field}
    (h : scanField tableMeta name = .ok field) : field.name = name := by
  unfold scanField at h
  split at h
  · next c hc =>
      obtain rfl := Except.ok.inj h
      simpa using List.find?_some hc
  · cases h

/-- The column of a `ReorderNode` has the name looked up. -/
theorem name_of_reorderColumn {fields : List Field} {name : Bytes} {found : ℕ × Field}
    (h : reorderColumn fields name = .ok found) : found.2.name = name := by
  unfold reorderColumn at h
  split at h
  · next field i hfind =>
      obtain rfl := Except.ok.inj h
      simpa using List.find?_some hfind
  · cases h

/-- The key columns have the names of the group-by columns. -/
theorem names_of_groupByKeys {child : Schema} {names : List Bytes} {keys : List (ℕ × Field)}
    (h : groupByKeys child names = .ok keys) : (keys.map fun k => k.2.name) = names := by
  refine names_of_mapM (fun name c hc => ?_) h
  rw [except_bind_eq_ok] at hc
  obtain ⟨i, -, hc⟩ := hc
  rw [except_bind_eq_ok] at hc
  obtain ⟨t, -, hc⟩ := hc
  obtain rfl := Except.ok.inj hc
  rfl

/-- The loop over aggregate expressions appends their names. -/
theorem names_of_createAggregates {exprs : List AggregateExpression} {child out out' : Schema}
    {fs : List AggregationFunction} (h : createAggregates child exprs out = .ok (fs, out')) :
    out'.names = out.names ++ exprs.map AggregateExpression.getOutputName := by
  obtain ⟨hfields, hlen, -⟩ := createAggregates_eq_ok h
  rw [Schema.names, hfields, List.map_append, aggregateFields, List.map_zipWith,
    ← List.map_uncurry_zip_eq_zipWith]
  exact congrArg (out.names ++ ·) (List.map_snd_zip hlen.ge)

/-- The loop over scalar expressions appends their names. -/
theorem names_of_createScalars {P : Platform} {exprs : List ScalarExpression} {s s' : Schema}
    {fs : List ScalarFunction} (h : createScalars P exprs s = .ok (fs, s')) :
    s'.names = s.names ++ exprs.map (ScalarExpression.getOutputName P) := by
  induction exprs generalizing s fs with
  | nil =>
      obtain ⟨rfl, rfl⟩ := Prod.mk.inj (Except.ok.inj h)
      simp
  | cons expr exprs ih =>
      rw [createScalars, except_bind_eq_ok] at h
      obtain ⟨⟨f, s₁⟩, hf, h⟩ := h
      rw [except_bind_eq_ok] at h
      obtain ⟨⟨fs', s₂⟩, hfs, h⟩ := h
      obtain ⟨rfl, rfl⟩ := Prod.mk.inj (Except.ok.inj h)
      obtain ⟨rfl, -⟩ := ScalarExpression.createScalarFunction_eq_ok hf
      rw [ih hfs, Schema.names_addColumn, List.append_assoc]
      rfl

/-- The columns that a `DropNode` keeps have the other names. -/
theorem names_of_keptColumns (fields : List Field) (columnsToDrop : List Bytes) :
    ((keptColumns fields columnsToDrop).map fun k => k.2.name) =
      (fields.map Field.name).filter fun name => !columnsToDrop.contains name := by
  have hkept : (fun name => !columnsToDrop.contains name) =
      fun name => decide (name ∉ columnsToDrop) := by
    funext name
    rw [List.contains_eq_mem, decide_not]
  conv_rhs => rw [← List.zipIdx_map_fst 0 fields, List.map_map, hkept, List.filter_map]
  rw [keptColumns, List.map_map]
  rfl

variable {P : Platform}

/-- **The schema after `BuildPipelines`** has the names of the node's columns. -/
theorem PlanNode.names_of_buildPipelines {plan : PlanNode} {ctx built : BuildContext}
    {required : Option (List Bytes)} (h : plan.buildPipelines P ctx required = .ok built) :
    built.schema.names = plan.columnNames P required := by
  have hbuilt := built_of_buildPipelines h
  clear h
  induction hbuilt with
  | scan _ hfields => exact names_of_mapM (fun _ _ => name_of_scanField) hfields
  | aggregate _ hfs _ => exact names_of_createAggregates hfs
  | groupBy _ _ hkeys hfs _ =>
      apply (names_of_createAggregates hfs).trans
      rw [columnNames, ← names_of_groupByKeys hkeys, Schema.names, List.map_map]
      rfl
  | filter _ _ ih => exact ih
  | orderBy _ _ ih => exact ih
  | limit _ ih => exact ih
  | scalar _ hfs ih =>
      rw [columnNames, ← ih]
      exact names_of_createScalars hfs
  | drop _ _ ih =>
      rw [columnNames, ← ih, Schema.names, List.map_map]
      exact names_of_keptColumns _ _
  | reorder _ hfound _ =>
      rw [columnNames, Schema.names, List.map_map]
      exact names_of_mapM (fun _ _ => name_of_reorderColumn) hfound

/-! ## Projected names -/

/-- Every output name refers to the column that its expression computes: the `k`-th of those
appended to the columns of the child. -/
def ProjectedNames (P : Platform) (child : PlanNode) (exprs : List ScalarExpression)
    (required : Option (List Bytes)) (s : Schema) : Prop :=
  ∀ (k : ℕ) expr, exprs[k]? = some expr → s.getColumnIndexByName (expr.getOutputName P) =
    .ok ((child.columnNames P (some (scalarColumns P required exprs))).length + k)

/-- **A projected name refers to the projected column** exactly if no column of the child has an
output name. -/
theorem projectedNames_iff {child : PlanNode} {exprs : List ScalarExpression}
    (hdistinct : (exprs.map (ScalarExpression.getOutputName P)).Nodup) {ctx built : BuildContext}
    {required : Option (List Bytes)}
    (hbuild : (PlanNode.scalar child exprs).buildPipelines P ctx required = .ok built) :
    ProjectedNames P child exprs required built.schema ↔ ∀ expr ∈ exprs,
      expr.getOutputName P ∉ child.columnNames P (some (scalarColumns P required exprs)) := by
  have hnames := PlanNode.names_of_buildPipelines hbuild
  rw [PlanNode.columnNames] at hnames
  unfold ProjectedNames
  generalize child.columnNames P (some (scalarColumns P required exprs)) = childNames at *
  constructor
  · intro h expr hexpr hmem
    obtain ⟨k, hk⟩ := List.mem_iff_getElem?.mp hexpr
    obtain ⟨-, hindex⟩ := Schema.getColumnIndexByName_eq_ok.mp (h k expr hk)
    have hlt := List.idxOf_lt_length_iff.mpr hmem
    rw [hnames, List.idxOf_append_of_mem hmem] at hindex
    omega
  · intro h k expr hk
    have hmem := List.mem_of_getElem? hk
    obtain ⟨hlt, rfl⟩ := List.getElem?_eq_some_iff.mp hk
    have hlt' : k < (exprs.map (ScalarExpression.getOutputName P)).length := by simpa using hlt
    have hk' := hdistinct.idxOf_getElem k hlt'
    rw [List.getElem_map] at hk'
    rw [Schema.getColumnIndexByName_eq_ok, hnames, List.idxOf_append_of_notMem (h _ hmem), hk',
      List.length_append]
    exact ⟨by omega, rfl⟩

/-- The lengths of the strings of a column under a name of their own. -/
theorem projectedNames_iff_length :
    let child : PlanNode := .scan [ascii "s"] ⟨[⟨ascii "s", .string, [], []⟩], 0⟩
    let exprs : List ScalarExpression := [.length (ascii "s") []]
    ∃ built,
      (PlanNode.scalar child exprs).buildPipelines Platform.integral (collectContext 1) none =
        .ok built ∧
      (ProjectedNames Platform.integral child exprs none built.schema ↔ ∀ expr ∈ exprs,
        expr.getOutputName Platform.integral ∉ child.columnNames Platform.integral
          (some (scalarColumns Platform.integral none exprs))) :=
  ⟨_, rfl, projectedNames_iff (by decide) rfl⟩

/-- `RegexpReplace` without an output name takes the name of the column it reads, and the name
refers to that column. -/
theorem not_projectedNames_regexpReplace :
    let child : PlanNode := .scan [ascii "s"] ⟨[⟨ascii "s", .string, [], []⟩], 0⟩
    let exprs : List ScalarExpression := [.regexpReplace (ascii "s") (ascii "a") (ascii "b") []]
    ∃ built,
      (PlanNode.scalar child exprs).buildPipelines Platform.integral (collectContext 1) none =
        .ok built ∧
      built.schema.getColumnIndexByName (ascii "s") = .ok 0 ∧
      ¬ ProjectedNames Platform.integral child exprs none built.schema := by
  refine ⟨_, rfl, rfl, ?_⟩
  intro h
  have hone := h 0 _ rfl
  revert hone
  decide

end ColumnarEngine
