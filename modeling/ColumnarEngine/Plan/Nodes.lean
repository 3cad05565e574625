import ColumnarEngine.Exec.Scan
import ColumnarEngine.Exec.AggregateExpressions
import ColumnarEngine.Plan.Expressions

/-!
# Plan nodes and their compilation

The `PlanNode` tree of `ExecutionLogic.h`, `BuildPipelines` of its eight nodes and the part of
`DataFrame::Collect` before execution. Pipelines and breakers are objects that others point to, so
the context holds them in lists and a pointer is an index: `ctx.current_pipeline`, the completed
pipelines, and the breaker that is the sink of one pipeline and the source of another.

A breaker is recorded with the arguments of its constructor. Physical columns have no names; the
names that the expressions give to the columns of a `ScalarTransformOperator` or of a breaker are
kept beside it.
-/

namespace ColumnarEngine

open Found

/-- The plan nodes. -/
inductive PlanNode
  | scan (columnNames : List Bytes) (tableMeta : MetadataTable)
  | aggregate (child : PlanNode) (groupByColumns : List Bytes)
      (aggregateExpressions : List AggregateExpression)
  | filter (child : PlanNode) (filterExpression : FilterExpression)
  | orderBy (child : PlanNode) (orderByColumns : List (Bytes × Bool)) (limit offset : Option ℕ)
  | limit (child : PlanNode) (limit : ℕ)
  | scalar (child : PlanNode) (scalarExpressions : List ScalarExpression)
  | drop (child : PlanNode) (columnsToDrop : List Bytes)
  | reorder (child : PlanNode) (desiredOrder : List Bytes)

/-- A breaker, by the arguments of its constructor. -/
inductive Breaker
  | aggregation (aggFunctions : List AggregationFunction) (numThreads : ℕ)
      (outputNames : List Bytes)
  | groupBy (groupColIndices : List ℕ) (keyTypes : List ColumnType)
      (aggFunctions : List AggregationFunction) (numThreads : ℕ) (outputNames : List Bytes)
  | orderBy (sortColumns : List (ℕ × Bool)) (accumTypes : List ColumnType)
      (limit offset : Option ℕ) (numThreads : ℕ)
  deriving DecidableEq, Repr

/-- What `Pipeline::source` points to. -/
inductive SourceRef
  | scan (op : ScanOperator)
  | breaker (ref : ℕ)
  deriving DecidableEq, Repr

/-- What `Pipeline::sink` points to. -/
inductive SinkRef
  | result
  | breaker (ref : ℕ)
  deriving DecidableEq, Repr

/-- A transform operator, with the names of the columns it appends. -/
structure CompiledTransform where
  op : TransformOperator
  outputNames : List Bytes := []
  deriving DecidableEq, Repr

/-- A pipeline while it is built; a null pointer is `none`. -/
structure PipelineSpec where
  source : Option SourceRef := none
  transforms : List CompiledTransform := []
  sink : Option SinkRef := none
  deriving DecidableEq, Repr

/-- `PipelineBuildContext`, with the objects it points to. -/
structure BuildContext where
  pipelines : List PipelineSpec
  breakers : List Breaker
  currentPipeline : ℕ
  completedPipelines : List ℕ
  schema : Schema
  numThreads : ℕ
  deriving DecidableEq, Repr

namespace BuildContext

/-- A change of the current pipeline. -/
def modifyCurrent (ctx : BuildContext) (f : PipelineSpec → PipelineSpec) : BuildContext :=
  { ctx with pipelines := ctx.pipelines.modify ctx.currentPipeline f }

/-- `ctx.current_pipeline->source = scan_op`. -/
def setScan (ctx : BuildContext) (op : ScanOperator) : BuildContext :=
  ctx.modifyCurrent fun p => { p with source := some (.scan op) }

/-- `ctx.current_pipeline->transforms.push_back(op)`. -/
def pushTransform (ctx : BuildContext) (t : CompiledTransform) : BuildContext :=
  ctx.modifyCurrent fun p => { p with transforms := p.transforms ++ [t] }

/-- `inner_pipeline = new Pipeline(); ctx.current_pipeline = inner_pipeline`. -/
def enterPipeline (ctx : BuildContext) : BuildContext :=
  { ctx with
    pipelines := ctx.pipelines ++ [{}]
    currentPipeline := ctx.pipelines.length }

/-- The breaker becomes the sink of the inner and the source of the outer pipeline; the inner one is
completed and the outer one current again. -/
def leavePipeline (ctx : BuildContext) (outer inner : ℕ) (breaker : Breaker) : BuildContext :=
  { ctx with
    breakers := ctx.breakers ++ [breaker]
    pipelines := (ctx.pipelines.modify inner
        fun p => { p with sink := some (.breaker ctx.breakers.length) }).modify outer
      fun p => { p with source := some (.breaker ctx.breakers.length) }
    completedPipelines := ctx.completedPipelines ++ [inner]
    currentPipeline := outer }

end BuildContext

/-- `operator<=` of `std::string`: bytes compare as unsigned. -/
def bytesLe (a b : Bytes) : Bool := decide (a.map UInt8.toNat ≤ b.map UInt8.toNat)

/-- `std::sort` and `erase(std::unique(…))` of column names. -/
def sortUnique (names : List Bytes) : List Bytes :=
  (names.insertionSort fun a b => bytesLe a b = true).destutter (· ≠ ·)

/-- `needed_columns` of an `AggregateNode`. -/
def aggregateColumns (groupByColumns : List Bytes) (exprs : List AggregateExpression) :
    List Bytes :=
  sortUnique (groupByColumns ++ exprs.flatMap AggregateExpression.requiredColumns)

/-- `needed_columns` of a `ScalarNode`. -/
def scalarColumns (P : Platform) (required : Option (List Bytes)) (exprs : List ScalarExpression) :
    List Bytes :=
  sortUnique (((required.getD []).filter fun reqCol =>
    ¬ exprs.any fun expr => expr.getOutputName P = reqCol) ++
      exprs.flatMap ScalarExpression.requiredColumns)

/-- The columns a `ScanNode` reads. -/
def scanColumns (columnNames : List Bytes) (tableMeta : MetadataTable)
    (required : Option (List Bytes)) : List Bytes :=
  let userCols :=
    if columnNames = [ascii "*"] then tableMeta.columnMeta.map ColumnMetadata.name else columnNames
  (required.getD []).foldl (fun cols reqCol => if reqCol ∈ cols then cols else cols ++ [reqCol])
    userCols

/-- The lookup of the fields of a `ScanNode` in the metadata. -/
def scanField (tableMeta : MetadataTable) (name : Bytes) : Except Bytes Field :=
  match tableMeta.columnMeta.find? fun c => c.name = name with
  | some c => .ok ⟨c.name, c.type⟩
  | none => .error (ascii "Column " ++ name ++ ascii " not found in table schema")

/-- The loop that creates the aggregation functions and adds their columns to the output schema. -/
def createAggregates (childSchema : Schema) :
    List AggregateExpression → Schema → Except Bytes (List AggregationFunction × Schema)
  | [], outputSchema => .ok ([], outputSchema)
  | expr :: exprs, outputSchema => do
      let (f, outputSchema) ← expr.create childSchema outputSchema
      let (fs, outputSchema) ← createAggregates childSchema exprs outputSchema
      return (f :: fs, outputSchema)

/-- The loop over the group-by columns: `group_col_indices` and the output fields, whose types are
`key_types`. -/
def groupByKeys (childSchema : Schema) (groupByColumns : List Bytes) :
    Except Bytes (List (ℕ × Field)) :=
  groupByColumns.mapM fun colName => do
    let ind ← childSchema.getColumnIndexByName colName
    let colType ← childSchema.getColumnTypeByName colName
    return (ind, ⟨colName, colType⟩)

/-- The loop over the scalar expressions; each sees the columns added by those before it. -/
def createScalars (P : Platform) :
    List ScalarExpression → Schema → Except Bytes (List ScalarFunction × Schema)
  | [], schema => .ok ([], schema)
  | expr :: exprs, schema => do
      let (f, schema) ← expr.createScalarFunction P schema
      let (fs, schema) ← createScalars P exprs schema
      return (f :: fs, schema)

/-- The check of a `DropNode` that every column to drop is there. -/
def checkDropped (childFields : List Field) : List Bytes → Except Bytes Unit
  | [] => .ok ()
  | dropCol :: cols =>
      if childFields.any fun field => field.name = dropCol then checkDropped childFields cols
      else .error (ascii "Cannot drop column '" ++ dropCol ++ ascii "': not found in dataframe")

/-- `cols_to_keep_indices` with the fields kept. -/
def keptColumns (childFields : List Field) (columnsToDrop : List Bytes) : List (ℕ × Field) :=
  (childFields.zipIdx.filter fun f => f.1.name ∉ columnsToDrop).map fun f => (f.2, f.1)

/-- The lookup of a column of a `ReorderNode`: its index and field. -/
def reorderColumn (childFields : List Field) (reorderCol : Bytes) : Except Bytes (ℕ × Field) :=
  match childFields.zipIdx.find? fun f => f.1.name = reorderCol with
  | some (field, i) => .ok (i, field)
  | none =>
      .error (ascii "Cannot reorder column '" ++ reorderCol ++ ascii "': not found in dataframe")

namespace PlanNode

/-- `BuildPipelines(ctx, required_columns)`. -/
def buildPipelines (P : Platform) :
    PlanNode → BuildContext → Option (List Bytes) → Except Bytes BuildContext
  | scan columnNames tableMeta, ctx, required => do
      let finalColumns := scanColumns columnNames tableMeta required
      let scanOp ← ScanOperator.make finalColumns tableMeta
      let fields ← finalColumns.mapM (scanField tableMeta)
      return { ctx.setScan scanOp with schema := ⟨fields⟩ }
  | aggregate child groupByColumns aggregateExpressions, ctx, _ => do
      let neededColumns := aggregateColumns groupByColumns aggregateExpressions
      let inner := ctx.enterPipeline
      let built ← child.buildPipelines P inner (some neededColumns)
      let names := aggregateExpressions.map AggregateExpression.getOutputName
      if groupByColumns.isEmpty then
        let (aggFunctions, outputSchema) ← createAggregates built.schema aggregateExpressions ⟨[]⟩
        let breaker := .aggregation aggFunctions built.numThreads names
        return { built.leavePipeline ctx.currentPipeline inner.currentPipeline breaker with
          schema := outputSchema }
      else
        let keys ← groupByKeys built.schema groupByColumns
        let (aggFunctions, outputSchema) ←
          createAggregates built.schema aggregateExpressions ⟨keys.map Prod.snd⟩
        let breaker := .groupBy (keys.map Prod.fst) (keys.map fun k => k.2.type) aggFunctions
          built.numThreads names
        return { built.leavePipeline ctx.currentPipeline inner.currentPipeline breaker with
          schema := outputSchema }
  | filter child filterExpression, ctx, required => do
      let neededColumns := sortUnique (filterExpression.requiredColumns ++ required.getD [])
      let built ← child.buildPipelines P ctx (some neededColumns)
      let filterFunction ← filterExpression.createFilterFunction built.schema
      return built.pushTransform { op := .filter filterFunction }
  | orderBy child orderByColumns lim off, ctx, required => do
      let neededColumns := sortUnique (required.getD [] ++ orderByColumns.map Prod.fst)
      let inner := ctx.enterPipeline
      let built ← child.buildPipelines P inner (some neededColumns)
      let sortColumns ← orderByColumns.mapM fun c => do
        let ind ← built.schema.getColumnIndexByName c.1
        return (ind, c.2)
      let breaker := .orderBy sortColumns built.schema.types lim off built.numThreads
      return built.leavePipeline ctx.currentPipeline inner.currentPipeline breaker
  | limit child n, ctx, required => do
      let built ← child.buildPipelines P ctx required
      return built.pushTransform { op := .limit n }
  | scalar child scalarExpressions, ctx, required => do
      let neededColumns := scalarColumns P required scalarExpressions
      let built ← child.buildPipelines P ctx (some neededColumns)
      let (scalarFunctions, schema) ← createScalars P scalarExpressions built.schema
      let names := scalarExpressions.map (ScalarExpression.getOutputName P)
      return { built.pushTransform { op := .scalar scalarFunctions, outputNames := names } with
        schema := schema }
  | drop child columnsToDrop, ctx, required => do
      let built ← child.buildPipelines P ctx required
      let childFields := built.schema.fields
      checkDropped childFields columnsToDrop
      let kept := keptColumns childFields columnsToDrop
      return { built.pushTransform { op := .drop (kept.map Prod.fst) } with
        schema := ⟨kept.map Prod.snd⟩ }
  | reorder child desiredOrder, ctx, required => do
      let built ← child.buildPipelines P ctx required
      let found ← desiredOrder.mapM (reorderColumn built.schema.fields)
      return { built.pushTransform { op := .reorder (found.map Prod.fst) } with
        schema := ⟨found.map Prod.snd⟩ }

/-! ## What a successful `BuildPipelines` has done -/

/-- The calls of `BuildPipelines` that do not throw, with what each node has looked up and
created. -/
inductive Built (P : Platform) :
    PlanNode → BuildContext → Option (List Bytes) → BuildContext → Prop
  | scan {columnNames : List Bytes} {tableMeta : MetadataTable} {ctx : BuildContext}
      {required : Option (List Bytes)} {op : ScanOperator} {fields : List Field}
      (hop : ScanOperator.make (scanColumns columnNames tableMeta required) tableMeta = .ok op)
      (hfields : (scanColumns columnNames tableMeta required).mapM (scanField tableMeta) =
        .ok fields) :
      Built P (scan columnNames tableMeta) ctx required { ctx.setScan op with schema := ⟨fields⟩ }
  | aggregate {child : PlanNode} {exprs : List AggregateExpression} {ctx built : BuildContext}
      {required : Option (List Bytes)} {fs : List AggregationFunction} {schema : Schema}
      (hchild : Built P child ctx.enterPipeline (some (aggregateColumns [] exprs)) built)
      (hfs : createAggregates built.schema exprs ⟨[]⟩ = .ok (fs, schema)) :
      Built P (aggregate child [] exprs) ctx required
        { built.leavePipeline ctx.currentPipeline ctx.enterPipeline.currentPipeline
            (.aggregation fs built.numThreads (exprs.map AggregateExpression.getOutputName)) with
          schema := schema }
  | groupBy {child : PlanNode} {groupByColumns : List Bytes} {exprs : List AggregateExpression}
      {ctx built : BuildContext} {required : Option (List Bytes)} {keys : List (ℕ × Field)}
      {fs : List AggregationFunction} {schema : Schema}
      (hchild : Built P child ctx.enterPipeline (some (aggregateColumns groupByColumns exprs))
        built)
      (hne : groupByColumns ≠ []) (hkeys : groupByKeys built.schema groupByColumns = .ok keys)
      (hfs : createAggregates built.schema exprs ⟨keys.map Prod.snd⟩ = .ok (fs, schema)) :
      Built P (aggregate child groupByColumns exprs) ctx required
        { built.leavePipeline ctx.currentPipeline ctx.enterPipeline.currentPipeline
            (.groupBy (keys.map Prod.fst) (keys.map fun k => k.2.type) fs built.numThreads
              (exprs.map AggregateExpression.getOutputName)) with
          schema := schema }
  | filter {child : PlanNode} {expr : FilterExpression} {ctx built : BuildContext}
      {required : Option (List Bytes)} {f : FilterFunction}
      (hchild : Built P child ctx
        (some (sortUnique (expr.requiredColumns ++ required.getD []))) built)
      (hf : expr.createFilterFunction built.schema = .ok f) :
      Built P (filter child expr) ctx required (built.pushTransform { op := .filter f })
  | orderBy {child : PlanNode} {columns : List (Bytes × Bool)} {lim off : Option ℕ}
      {ctx built : BuildContext} {required : Option (List Bytes)} {sortColumns : List (ℕ × Bool)}
      (hchild : Built P child ctx.enterPipeline
        (some (sortUnique (required.getD [] ++ columns.map Prod.fst))) built)
      (hsort : List.Forall₂ (fun c s => built.schema.getColumnIndexByName c.1 = .ok s.1 ∧ s.2 = c.2)
        columns sortColumns) :
      Built P (orderBy child columns lim off) ctx required
        (built.leavePipeline ctx.currentPipeline ctx.enterPipeline.currentPipeline
          (.orderBy sortColumns built.schema.types lim off built.numThreads))
  | limit {child : PlanNode} {n : ℕ} {ctx built : BuildContext} {required : Option (List Bytes)}
      (hchild : Built P child ctx required built) :
      Built P (limit child n) ctx required (built.pushTransform { op := .limit n })
  | scalar {child : PlanNode} {exprs : List ScalarExpression} {ctx built : BuildContext}
      {required : Option (List Bytes)} {fs : List ScalarFunction} {schema : Schema}
      (hchild : Built P child ctx (some (scalarColumns P required exprs)) built)
      (hfs : createScalars P exprs built.schema = .ok (fs, schema)) :
      Built P (scalar child exprs) ctx required
        { built.pushTransform
            { op := .scalar fs, outputNames := exprs.map (ScalarExpression.getOutputName P) } with
          schema := schema }
  | drop {child : PlanNode} {columnsToDrop : List Bytes} {ctx built : BuildContext}
      {required : Option (List Bytes)} (hchild : Built P child ctx required built)
      (hchecked : checkDropped built.schema.fields columnsToDrop = .ok ()) :
      Built P (drop child columnsToDrop) ctx required
        { built.pushTransform
            { op := .drop ((keptColumns built.schema.fields columnsToDrop).map Prod.fst) } with
          schema := ⟨(keptColumns built.schema.fields columnsToDrop).map Prod.snd⟩ }
  | reorder {child : PlanNode} {desiredOrder : List Bytes} {ctx built : BuildContext}
      {required : Option (List Bytes)} {found : List (ℕ × Field)}
      (hchild : Built P child ctx required built)
      (hfound : desiredOrder.mapM (reorderColumn built.schema.fields) = .ok found) :
      Built P (reorder child desiredOrder) ctx required
        { built.pushTransform { op := .reorder (found.map Prod.fst) } with
          schema := ⟨found.map Prod.snd⟩ }

/-- **Every successful call** of `BuildPipelines` is one of these. -/
theorem built_of_buildPipelines {P : Platform} {plan : PlanNode} {ctx built : BuildContext}
    {required : Option (List Bytes)} (h : plan.buildPipelines P ctx required = .ok built) :
    Built P plan ctx required built := by
  induction plan generalizing ctx built required with
  | scan columnNames tableMeta =>
      rw [buildPipelines, except_bind_eq_ok] at h
      obtain ⟨scanOp, hscan, h⟩ := h
      rw [except_bind_eq_ok] at h
      obtain ⟨fields, hfields, h⟩ := h
      obtain rfl := Except.ok.inj h
      exact .scan hscan hfields
  | aggregate child groupByColumns exprs ih =>
      rw [buildPipelines, except_bind_eq_ok] at h
      obtain ⟨inner, hinner, h⟩ := h
      dsimp only at h
      split_ifs at h with hempty
      · rw [except_bind_eq_ok] at h
        obtain ⟨⟨fs, schema⟩, hfs, h⟩ := h
        obtain rfl := Except.ok.inj h
        obtain rfl := List.isEmpty_iff.mp hempty
        exact .aggregate (ih hinner) hfs
      · rw [except_bind_eq_ok] at h
        obtain ⟨keys, hkeys, h⟩ := h
        rw [except_bind_eq_ok] at h
        obtain ⟨⟨fs, schema⟩, hfs, h⟩ := h
        obtain rfl := Except.ok.inj h
        exact .groupBy (ih hinner) (fun hnil => hempty (hnil ▸ rfl)) hkeys hfs
  | filter child filterExpression ih =>
      rw [buildPipelines, except_bind_eq_ok] at h
      obtain ⟨inner, hinner, h⟩ := h
      rw [except_bind_eq_ok] at h
      obtain ⟨f, hf, h⟩ := h
      obtain rfl := Except.ok.inj h
      exact .filter (ih hinner) hf
  | orderBy child orderByColumns lim off ih =>
      rw [buildPipelines, except_bind_eq_ok] at h
      obtain ⟨inner, hinner, h⟩ := h
      rw [except_bind_eq_ok] at h
      obtain ⟨sortColumns, hsort, h⟩ := h
      obtain rfl := Except.ok.inj h
      refine .orderBy (ih hinner) ((forall₂_of_mapM_ok hsort).imp fun c s hc => ?_)
      rw [except_bind_eq_ok] at hc
      obtain ⟨i, hi, hc⟩ := hc
      obtain rfl := Except.ok.inj hc
      exact ⟨hi, rfl⟩
  | limit child n ih =>
      rw [buildPipelines, except_bind_eq_ok] at h
      obtain ⟨inner, hinner, h⟩ := h
      obtain rfl := Except.ok.inj h
      exact .limit (ih hinner)
  | scalar child exprs ih =>
      rw [buildPipelines, except_bind_eq_ok] at h
      obtain ⟨inner, hinner, h⟩ := h
      rw [except_bind_eq_ok] at h
      obtain ⟨⟨fs, schema⟩, hfs, h⟩ := h
      obtain rfl := Except.ok.inj h
      exact .scalar (ih hinner) hfs
  | drop child columnsToDrop ih =>
      rw [buildPipelines, except_bind_eq_ok] at h
      obtain ⟨inner, hinner, h⟩ := h
      rw [except_bind_eq_ok] at h
      obtain ⟨⟨⟩, hchecked, h⟩ := h
      obtain rfl := Except.ok.inj h
      exact .drop (ih hinner) hchecked
  | reorder child desiredOrder ih =>
      rw [buildPipelines, except_bind_eq_ok] at h
      obtain ⟨inner, hinner, h⟩ := h
      rw [except_bind_eq_ok] at h
      obtain ⟨found, hfound, h⟩ := h
      obtain rfl := Except.ok.inj h
      exact .reorder (ih hinner) hfound

end PlanNode

/-- The context `DataFrame::Collect` starts with: the outer pipeline, whose sink is the result
sink. -/
def collectContext (threads : ℕ) : BuildContext where
  pipelines := [{ sink := some .result }]
  breakers := []
  currentPipeline := 0
  completedPipelines := []
  schema := ⟨[]⟩
  numThreads := threads

/-- `DataFrame::Collect` up to the execution of `ctx.completed_pipelines`. -/
def compile (P : Platform) (plan : PlanNode) (threads : ℕ) : Except Bytes BuildContext := do
  let ctx ← plan.buildPipelines P (collectContext threads) none
  return { ctx with completedPipelines := ctx.completedPipelines ++ [0] }

/-- The pipelines that `Collect` executes, in order. -/
def BuildContext.schedule (ctx : BuildContext) : List PipelineSpec :=
  ctx.completedPipelines.map fun ref => ctx.pipelines.getD ref {}

end ColumnarEngine
