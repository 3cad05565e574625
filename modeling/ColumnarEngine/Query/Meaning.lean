import ColumnarEngine.Query.Values

/-!
# What a plan asks for

`PlanNode.Answers` relates the rows of a table to the answers of a plan, node by node and by column
names: no positions, pipelines or breakers. Where the engine is free, in the order of a scan and of
groups and among rows with equal sort keys, so are the answers.

A node other than a scan is compiled into one transform or into one breaker over its child
(`AddsTransform`, `AddsBreaker`). What that operator does to an answer of the child is an answer of
the node.
-/

namespace ColumnarEngine

open Found

/-! ## Tables -/

/-- The columns of a table. -/
def MetadataTable.schema (tableMeta : MetadataTable) : Schema :=
  ⟨tableMeta.columnMeta.map fun c => ⟨c.name, c.type⟩⟩

/-- The values of some columns in a row. -/
def Schema.project (s : Schema) (columnNames : List Bytes) (row : Row) : Row :=
  columnNames.map (s.valueOf row)

/-- The columns of the names. -/
def Schema.select (s : Schema) (columnNames : List Bytes) : List Field :=
  columnNames.map fun name => ⟨name, s.typeOf name⟩

/-- Every row has a value for each column. -/
def TypedRows (types : List ColumnType) (rows : List Row) : Prop :=
  ∀ row ∈ rows, List.Forall₂ Value.HasType row types

/-- What a transform does to the rows of a table. -/
def TransformOperator.onTable (P : Platform) (rows : List Row) : TransformOperator → List Row
  | limit n => rows.take n
  | t => rows.filterMap (t.onRow P)

/-- A transform other than `Limit` treats the rows one by one. -/
theorem TransformOperator.onTable_eq {P : Platform} {t : TransformOperator} (ht : t.isLimit = false)
    (rows : List Row) : t.onTable P rows = rows.filterMap (t.onRow P) := by
  cases t with
  | limit n => simp [isLimit] at ht
  | filter _ | scalar _ | drop _ | reorder _ => rfl

/-- Without floating point in aggregates. -/
def Breaker.IsExact : Breaker → Prop
  | aggregation fs _ _ => ∀ f ∈ fs, f.kind.Exact
  | groupBy _ _ fs _ _ => ∀ f ∈ fs, f.kind.Exact
  | orderBy _ _ _ _ _ => True

/-! ## Types -/

section types

variable {P : Platform} {types : List ColumnType} {rows : List Row}

/-- The values that scalar functions append have their types. -/
theorem hasTypes_foldl_appendTo (fs : List ScalarFunction) {row : Row}
    (h : List.Forall₂ Value.HasType row types) :
    List.Forall₂ Value.HasType (fs.foldl (ScalarFunction.appendTo P) row)
      (types ++ fs.map ScalarFunction.returnType) := by
  induction fs generalizing row types with
  | nil => simpa using h
  | cons f fs ih =>
      have hrow : List.Forall₂ Value.HasType (ScalarFunction.appendTo P row f)
          (types ++ [f.returnType]) :=
        List.rel_append h (.cons (Value.hasType_conv _ _) .nil)
      simpa using ih hrow

/-- The values at some indices have the types at them. -/
theorem hasTypes_pick {idxs : List ℕ} (hidxs : ∀ i ∈ idxs, i < types.length) {row : Row}
    (h : List.Forall₂ Value.HasType row types) :
    List.Forall₂ Value.HasType (idxs.map fun i => row.getD i default)
      (idxs.map fun i => types.getD i default) := by
  rw [List.forall₂_map_left_iff, List.forall₂_map_right_iff, List.forall₂_same]
  intro i hi
  rw [List.getD_eq_getElem _ _ (hidxs i hi)]
  exact hasType_getD h (hidxs i hi)

/-- **A transform keeps rows typed.** -/
theorem TransformOperator.typedRows_onTable {t : TransformOperator} (ht : t.WellTyped types)
    (h : TypedRows types rows) : TypedRows (t.outputTypes types) (t.onTable P rows) := by
  cases t with
  | filter f =>
      intro row hrow
      obtain ⟨r, hr, hpass⟩ := List.mem_filterMap.mp hrow
      rw [onRow] at hpass
      split_ifs at hpass
      rw [← Option.some.inj hpass]
      exact h r hr
  | scalar fs =>
      intro row hrow
      obtain ⟨r, hr, hvalue⟩ := List.mem_filterMap.mp hrow
      rw [← Option.some.inj hvalue]
      exact hasTypes_foldl_appendTo fs (h r hr)
  | drop idxs =>
      intro row hrow
      obtain ⟨r, hr, hvalue⟩ := List.mem_filterMap.mp hrow
      rw [← Option.some.inj hvalue]
      exact hasTypes_pick ht.2 (h r hr)
  | reorder idxs =>
      intro row hrow
      obtain ⟨r, hr, hvalue⟩ := List.mem_filterMap.mp hrow
      rw [← Option.some.inj hvalue]
      exact hasTypes_pick ht (h r hr)
  | limit n => exact fun row hrow => h row (List.mem_of_mem_take hrow)

/-- Aggregates have the types of their columns. -/
theorem hasTypes_valueOf (fs : List AggregationFunction) (rows : List Row) :
    List.Forall₂ Value.HasType (fs.map fun f => f.valueOf P rows)
      (fs.map AggregationFunction.columnType) := by
  rw [List.forall₂_map_left_iff, List.forall₂_map_right_iff, List.forall₂_same]
  exact fun f _ => Value.hasType_conv _ _

/-- **A breaker emits typed rows.** -/
theorem Breaker.Emits.typedRows {b : Breaker} {fields : List Field} {input : List Row}
    (hemits : b.Emits P input rows) (hfits : b.Fits fields)
    (h : TypedRows (typesOf fields) input) : TypedRows (typesOf (b.outputFields fields)) rows := by
  cases b with
  | aggregation fs n names =>
      obtain rfl := hemits
      intro row hrow
      rw [List.mem_singleton.mp hrow, outputFields, map_columnType_of_fit hfits]
      exact hasTypes_valueOf fs input
  | groupBy idxs keyTypes fs n names =>
      obtain ⟨ks, hcovers, rfl⟩ := hemits
      obtain ⟨hidxs, -, hfit⟩ := hfits
      intro row hrow
      obtain ⟨k, hk, rfl⟩ := List.mem_map.mp hrow
      obtain ⟨r, hr, rfl⟩ := (hcovers.mem_iff k).mp hk
      rw [outputFields, typesOf, List.map_append, ← typesOf, ← typesOf, map_columnType_of_fit hfit]
      apply List.rel_append _ (hasTypes_valueOf fs _)
      have hpick := hasTypes_pick (by simpa using hidxs) (h r hr)
      have htypes : (idxs.map fun i => (typesOf fields).getD i default) =
          typesOf (idxs.map fun i => fields.getD i default) := by
        rw [typesOf, typesOf, List.map_map]
        apply List.map_congr_left
        intro i hi
        simp [List.getElem?_eq_getElem (hidxs i hi)]
      rwa [htypes] at hpick
  | orderBy sortColumns accumTypes limit offset n =>
      obtain ⟨L, hperm, -, rfl⟩ := hemits
      intro row hrow
      have hL : row ∈ L := by
        cases limit with
        | none => exact List.mem_of_mem_drop hrow
        | some l => exact List.mem_of_mem_drop (List.mem_of_mem_take hrow)
      exact h row (hperm.subset hL)

end types

/-! ## Lookups -/

namespace Schema

variable {s : Schema} {columnName : Bytes} {ind : ℕ}

/-- The field at the index that a lookup finds. -/
theorem getElem?_of_lookup (h : s.getColumnIndexByName columnName = .ok ind) :
    s.fields[ind]? = some ⟨columnName, s.typeOf columnName⟩ := by
  obtain ⟨f, hf, rfl, htype⟩ := getElem?_of_getColumnIndexByName h
  rw [hf, typeOf_eq h htype]

/-- A lookup that found a field found the first one of the name. -/
theorem getColumnIndexByName_of_find {f : Field × ℕ}
    (h : s.fields.zipIdx.find? (fun f => f.1.name = columnName) = some f) :
    s.getColumnIndexByName columnName = .ok f.2 := by
  rw [getColumnIndexByName, List.findIdx?_eq_fst_find?_zipIdx, h]
  rfl

end Schema

/-- A column of a scan, by name. -/
theorem scanField_eq_ok {tableMeta : MetadataTable} {columnName : Bytes} {field : Field}
    (h : scanField tableMeta columnName = .ok field) :
    field = ⟨columnName, tableMeta.schema.typeOf columnName⟩ := by
  unfold scanField at h
  split at h
  · next c hc =>
      obtain rfl := Except.ok.inj h
      have hname : c.name = columnName := by simpa using List.find?_some hc
      have hmem : columnName ∈ tableMeta.schema.names := by
        rw [Schema.names, MetadataTable.schema, List.map_map]
        exact List.mem_map.mpr ⟨c, List.mem_of_find?_eq_some hc, hname⟩
      have hindex := Schema.getColumnIndexByName_eq_ok.mpr
        ⟨List.idxOf_lt_length_iff.mpr hmem, rfl⟩
      have hfind : (tableMeta.schema.fields.find? fun f => f.name = columnName) =
          some ⟨c.name, c.type⟩ := by
        rw [MetadataTable.schema, List.find?_map]
        show (tableMeta.columnMeta.find? fun c => c.name = columnName).map _ = _
        rw [hc]
        rfl
      have htype : tableMeta.schema.getColumnTypeByName columnName = .ok c.type := by
        rw [Schema.getColumnTypeByName, hfind]
      rw [Schema.typeOf_eq hindex htype, hname]
  · cases h

/-- A column of a `ReorderNode`, by name. -/
theorem reorderColumn_eq_ok {s : Schema} {columnName : Bytes} {found : ℕ × Field}
    (h : reorderColumn s.fields columnName = .ok found) :
    s.getColumnIndexByName columnName = .ok found.1 ∧
      found.2 = ⟨columnName, s.typeOf columnName⟩ := by
  unfold reorderColumn at h
  split at h
  · next field i hfind =>
      obtain rfl := Except.ok.inj h
      have hindex := Schema.getColumnIndexByName_of_find hfind
      have hget : s.fields[i]? = some field :=
        List.mk_mem_zipIdx_iff_getElem?.mp (List.mem_of_find?_eq_some hfind)
      exact ⟨hindex, Option.some.inj (hget.symm.trans (Schema.getElem?_of_lookup hindex))⟩
  · cases h

/-- A column of a GROUP BY, by name. -/
theorem groupByKey_eq_ok {s : Schema} {columnNames : List Bytes} {keys : List (ℕ × Field)}
    (h : groupByKeys s columnNames = .ok keys) :
    List.Forall₂ (fun name k => s.getColumnIndexByName name = .ok k.1 ∧
      k.2 = ⟨name, s.typeOf name⟩) columnNames keys := by
  refine (forall₂_of_mapM_ok h).imp fun name k hk => ?_
  rw [except_bind_eq_ok] at hk
  obtain ⟨i, hi, hk⟩ := hk
  rw [except_bind_eq_ok] at hk
  obtain ⟨t, ht, hk⟩ := hk
  obtain rfl := Except.ok.inj hk
  exact ⟨hi, by rw [Schema.typeOf_eq hi ht]⟩

/-- Columns found by name: the values at their indices are those of the names, and their fields
those selected. -/
theorem map_of_lookups {s : Schema} {columnNames : List Bytes} {found : List (ℕ × Field)}
    (h : List.Forall₂ (fun name k => s.getColumnIndexByName name = .ok k.1 ∧
      k.2 = ⟨name, s.typeOf name⟩) columnNames found) :
    keyOf (found.map Prod.fst) = s.project columnNames ∧
      found.map Prod.snd = s.select columnNames := by
  constructor
  · funext row
    rw [keyOf, Schema.project, List.map_map]
    exact map_eq_map_of_forall₂ (h.imp fun name k hk => Schema.getD_eq_valueOf hk.1 row)
  · exact map_eq_map_of_forall₂ (h.imp fun name k hk => hk.2)

namespace PlanNode

/-- The rows are an answer of the plan over the rows of the table, in columns of the schema.
`required` are columns that a scan adds to those asked for. -/
inductive Answers (P : Platform) (data : List Row) :
    PlanNode → Option (List Bytes) → Schema → List Row → Prop
  | scan {columnNames : List Bytes} {tableMeta : MetadataTable} {required : Option (List Bytes)}
      {rows : List Row}
      (hperm : rows.Perm (data.map
        (tableMeta.schema.project (scanColumns columnNames tableMeta required)))) :
      Answers P data (scan columnNames tableMeta) required
        ⟨tableMeta.schema.select (scanColumns columnNames tableMeta required)⟩ rows
  | filter {child : PlanNode} {expr : FilterExpression} {required : Option (List Bytes)}
      {s : Schema} {rows : List Row}
      (hchild : Answers P data child
        (some (sortUnique (expr.requiredColumns ++ required.getD []))) s rows) :
      Answers P data (filter child expr) required s (rows.filter fun row => expr.Holds s row)
  | limit {child : PlanNode} {n : ℕ} {required : Option (List Bytes)} {s : Schema}
      {rows : List Row} (hchild : Answers P data child required s rows) :
      Answers P data (limit child n) required s (rows.take n)
  | scalar {child : PlanNode} {exprs : List ScalarExpression} {required : Option (List Bytes)}
      {s : Schema} {rows : List Row}
      (hchild : Answers P data child (some (scalarColumns P required exprs)) s rows) :
      Answers P data (scalar child exprs) required (s.withScalars P exprs)
        (rows.map (withValues P s exprs))
  | drop {child : PlanNode} {columnsToDrop : List Bytes} {required : Option (List Bytes)}
      {s : Schema} {rows : List Row} (hchild : Answers P data child required s rows) :
      Answers P data (drop child columnsToDrop) required
        ⟨(keptColumns s.fields columnsToDrop).map Prod.snd⟩
        (rows.map fun row => (keptColumns s.fields columnsToDrop).map fun k => row.getD k.1 default)
  | reorder {child : PlanNode} {desiredOrder : List Bytes} {required : Option (List Bytes)}
      {s : Schema} {rows : List Row} (hchild : Answers P data child required s rows) :
      Answers P data (reorder child desiredOrder) required ⟨s.select desiredOrder⟩
        (rows.map (s.project desiredOrder))
  | aggregate {child : PlanNode} {exprs : List AggregateExpression}
      {required : Option (List Bytes)} {s : Schema} {rows : List Row} {values : Row}
      (hchild : Answers P data child (some (aggregateColumns [] exprs)) s rows)
      (hvalues : List.Forall₂ (AggregateExpression.Aggregates P s rows) exprs values) :
      Answers P data (aggregate child [] exprs) required
        ⟨exprs.map fun e => ⟨e.getOutputName, e.typeIn s⟩⟩ [values]
  | groupBy {child : PlanNode} {groupByColumns : List Bytes} {exprs : List AggregateExpression}
      {required : Option (List Bytes)} {s : Schema} {rows ks : List Row} {values : Row → Row}
      (hchild : Answers P data child (some (aggregateColumns groupByColumns exprs)) s rows)
      (hne : groupByColumns ≠ []) (hcovers : Covers (s.project groupByColumns) ks rows)
      (hvalues : ∀ k ∈ ks, List.Forall₂ (AggregateExpression.Aggregates P s
        (rows.filter fun row => s.project groupByColumns row = k)) exprs (values k)) :
      Answers P data (aggregate child groupByColumns exprs) required
        ⟨s.select groupByColumns ++ exprs.map fun e => ⟨e.getOutputName, e.typeIn s⟩⟩
        (ks.map fun k => k ++ values k)
  | orderBy {child : PlanNode} {columns : List (Bytes × Bool)} {lim off : Option ℕ}
      {required : Option (List Bytes)} {s : Schema} {rows sorted : List Row}
      (hchild : Answers P data child
        (some (sortUnique (required.getD [] ++ columns.map Prod.fst))) s rows)
      (hperm : sorted.Perm rows)
      (hsorted : sorted.Pairwise
        (NotAfter (lexBefore (columns.map fun c => (s.names.idxOf c.1, c.2))))) :
      Answers P data (orderBy child columns lim off) required s (window lim off sorted)

/-! ## Nodes as operators -/

/-- A node that is compiled into a transform over its child: `s` are the columns of the child, `s'`
those of the node. -/
inductive AddsTransform (P : Platform) (child : PlanNode) : PlanNode → Option (List Bytes) →
    Option (List Bytes) → Schema → CompiledTransform → Schema → Prop
  | filter {expr : FilterExpression} {required : Option (List Bytes)} {s : Schema}
      {f : FilterFunction} (hf : expr.createFilterFunction s = .ok f) :
      AddsTransform P child (filter child expr) required
        (some (sortUnique (expr.requiredColumns ++ required.getD []))) s { op := .filter f } s
  | limit {n : ℕ} {required : Option (List Bytes)} {s : Schema} :
      AddsTransform P child (limit child n) required required s { op := .limit n } s
  | scalar {exprs : List ScalarExpression} {required : Option (List Bytes)} {s s' : Schema}
      {fs : List ScalarFunction} (hfs : createScalars P exprs s = .ok (fs, s')) :
      AddsTransform P child (scalar child exprs) required (some (scalarColumns P required exprs)) s
        { op := .scalar fs, outputNames := exprs.map (ScalarExpression.getOutputName P) } s'
  | drop {columnsToDrop : List Bytes} {required : Option (List Bytes)} {s : Schema} :
      AddsTransform P child (drop child columnsToDrop) required required s
        { op := .drop ((keptColumns s.fields columnsToDrop).map Prod.fst) }
        ⟨(keptColumns s.fields columnsToDrop).map Prod.snd⟩
  | reorder {desiredOrder : List Bytes} {required : Option (List Bytes)} {s : Schema}
      {found : List (ℕ × Field)} (hfound : desiredOrder.mapM (reorderColumn s.fields) = .ok found) :
      AddsTransform P child (reorder child desiredOrder) required required s
        { op := .reorder (found.map Prod.fst) } ⟨found.map Prod.snd⟩

/-- A node that is compiled into a breaker over its child. -/
inductive AddsBreaker (child : PlanNode) : PlanNode → Option (List Bytes) → Option (List Bytes) →
    Schema → Breaker → Schema → Prop
  | aggregate {exprs : List AggregateExpression} {required : Option (List Bytes)} {s s' : Schema}
      {fs : List AggregationFunction} {n : ℕ}
      (hfs : createAggregates s exprs ⟨[]⟩ = .ok (fs, s')) :
      AddsBreaker child (aggregate child [] exprs) required (some (aggregateColumns [] exprs)) s
        (.aggregation fs n (exprs.map AggregateExpression.getOutputName)) s'
  | groupBy {groupByColumns : List Bytes} {exprs : List AggregateExpression}
      {required : Option (List Bytes)} {s s' : Schema} {keys : List (ℕ × Field)}
      {fs : List AggregationFunction} {n : ℕ} (hne : groupByColumns ≠ [])
      (hkeys : groupByKeys s groupByColumns = .ok keys)
      (hfs : createAggregates s exprs ⟨keys.map Prod.snd⟩ = .ok (fs, s')) :
      AddsBreaker child (aggregate child groupByColumns exprs) required
        (some (aggregateColumns groupByColumns exprs)) s
        (.groupBy (keys.map Prod.fst) (keys.map fun k => k.2.type) fs n
          (exprs.map AggregateExpression.getOutputName)) s'
  | orderBy {columns : List (Bytes × Bool)} {lim off : Option ℕ} {required : Option (List Bytes)}
      {s : Schema} {sortColumns : List (ℕ × Bool)} {n : ℕ}
      (hsort : List.Forall₂ (fun c k => s.getColumnIndexByName c.1 = .ok k.1 ∧ k.2 = c.2)
        columns sortColumns) :
      AddsBreaker child (orderBy child columns lim off) required
        (some (sortUnique (required.getD [] ++ columns.map Prod.fst))) s
        (.orderBy sortColumns s.types lim off n) s

variable {P : Platform} {child plan : PlanNode} {required inner : Option (List Bytes)}
  {s s' : Schema}

/-- The transform fits the columns of the child and leaves those of the node. -/
theorem AddsTransform.fits {t : CompiledTransform}
    (h : AddsTransform P child plan required inner s t s') :
    t.Fits s.fields ∧ s'.fields = t.outputFields s.fields := by
  cases h with
  | filter hf => exact ⟨FilterExpression.createFilterFunction_wellTyped hf, rfl⟩
  | limit => exact ⟨trivial, rfl⟩
  | scalar hfs => exact (createScalars_eq_ok hfs).symm
  | @drop columnsToDrop =>
      obtain ⟨hnodup, hkept⟩ := keptColumns_eq s.fields columnsToDrop
      obtain ⟨hlt, hmap⟩ := map_snd_eq hkept
      exact ⟨⟨hnodup, hlt⟩, hmap⟩
  | reorder hfound => exact map_snd_eq (reorderColumns_eq_ok hfound)

/-- The breaker fits the columns of the child and leaves those of the node. -/
theorem AddsBreaker.fits {b : Breaker} (h : AddsBreaker child plan required inner s b s') :
    b.Fits s.fields ∧ s'.fields = b.outputFields s.fields := by
  cases h with
  | aggregate hfs => exact (createAggregates_eq_ok hfs).symm
  | @groupBy _ _ _ _ _ keys _ _ _ hkeys hfs =>
      obtain ⟨hlt, hmap⟩ := map_snd_eq (groupByKeys_eq_ok hkeys)
      obtain ⟨hfields, hfit⟩ := createAggregates_eq_ok hfs
      have hkeyTypes : (keys.map fun k => k.2.type) = typesOf (keys.map Prod.snd) := by
        rw [typesOf, List.map_map]
        rfl
      refine ⟨⟨hlt, hmap ▸ hkeyTypes, hfit⟩, ?_⟩
      dsimp only [Breaker.outputFields]
      rw [hfields, hmap]
  | orderBy hsort =>
      refine ⟨⟨?_, rfl⟩, rfl⟩
      intro k hk
      obtain ⟨c, -, hi, -⟩ := exists_of_forall₂_right hsort hk
      obtain ⟨f, hf, -⟩ := Schema.getElem?_of_getColumnIndexByName hi
      exact (List.getElem?_eq_some_iff.mp hf).1

/-- No filter and no condition has a floating constant. -/
def IsExact : PlanNode → Prop
  | scan _ _ => True
  | aggregate child _ _ => child.IsExact
  | filter child expr => child.IsExact ∧ expr.IsExact
  | orderBy child _ _ _ => child.IsExact
  | limit child _ => child.IsExact
  | scalar child exprs => child.IsExact ∧ ∀ e ∈ exprs, e.IsExact
  | drop child _ => child.IsExact
  | reorder child _ => child.IsExact

variable {data rows : List Row}

/-- **The transform of a node** turns an answer of the child into one of the node. -/
theorem AddsTransform.answers {t : CompiledTransform}
    (h : AddsTransform P child plan required inner s t s') (hexact : plan.IsExact)
    (hcasts : t.op.CastsMatch s.types) (hchild : child.Answers P data inner s rows) :
    plan.Answers P data required s' (t.op.onTable P rows) := by
  cases h with
  | @filter expr required s f hf =>
      have hrows : rows.filterMap ((TransformOperator.filter f).onRow P) =
          rows.filter fun row => expr.Holds s row := by
        rw [show (TransformOperator.filter f).onRow P =
          Option.guard fun row => f.passes P row from rfl, List.filterMap_eq_filter]
        apply List.filter_congr
        intro row _
        rw [Bool.eq_iff_iff, decide_eq_true_iff]
        exact FilterExpression.passes_iff hf hexact.2 row
      rw [TransformOperator.onTable_eq rfl, hrows]
      exact .filter hchild
  | limit => exact .limit hchild
  | @scalar exprs required s s' fs hfs =>
      obtain ⟨rfl, hvalues⟩ := foldl_appendTo_of_createScalars hfs hexact.2 hcasts
      have hrows : rows.filterMap ((TransformOperator.scalar fs).onRow P) =
          rows.map (withValues P s exprs) := by
        rw [← List.filterMap_eq_map]
        apply List.filterMap_congr
        intro row _
        exact congrArg some (hvalues row)
      rw [TransformOperator.onTable_eq rfl, hrows]
      exact .scalar hchild
  | @drop columnsToDrop =>
      have hrows : ∀ idxs, rows.filterMap ((TransformOperator.drop idxs).onRow P) =
          rows.map fun row => idxs.map fun i => row.getD i default := fun idxs => by
        rw [← List.filterMap_eq_map]
        rfl
      rw [TransformOperator.onTable_eq rfl, hrows]
      simp only [List.map_map]
      exact .drop hchild
  | reorder hfound =>
      have hlookups := (forall₂_of_mapM_ok hfound).imp fun _ _ hk => reorderColumn_eq_ok hk
      obtain ⟨hkey, hfields⟩ := map_of_lookups hlookups
      have hrows : ∀ idxs, rows.filterMap ((TransformOperator.reorder idxs).onRow P) =
          rows.map (keyOf idxs) := fun idxs => by
        rw [← List.filterMap_eq_map]
        rfl
      rw [TransformOperator.onTable_eq rfl, hrows, hkey, hfields]
      exact .reorder hchild

/-- **The breaker of a node** turns an answer of the child into one of the node. -/
theorem AddsBreaker.answers {b : Breaker} (h : AddsBreaker child plan required inner s b s')
    (hexact : b.IsExact) (htyped : TypedRows s.types rows)
    (hchild : child.Answers P data inner s rows) {emitted : List Row}
    (hemits : b.Emits P rows emitted) : plan.Answers P data required s' emitted := by
  cases h with
  | aggregate hfs =>
      obtain rfl := hemits
      obtain ⟨rfl, hvalues⟩ := aggregates_of_createAggregates (P := P) hfs
        (createAggregates_eq_ok hfs).2.2 hexact htyped
      exact .aggregate hchild hvalues
  | @groupBy groupByColumns exprs _ _ _ keys fs _ hne hkeys hfs =>
      obtain ⟨ks, hcovers, rfl⟩ := hemits
      obtain ⟨hkey, hfields⟩ := map_of_lookups (groupByKey_eq_ok hkeys)
      have hvalues := fun rows' (hrows' : TypedRows s.types rows') =>
        aggregates_of_createAggregates (P := P) hfs (createAggregates_eq_ok hfs).2.2 hexact hrows'
      obtain ⟨rfl, -⟩ := hvalues rows htyped
      rw [hkey] at hcovers
      rw [hfields]
      refine .groupBy hchild hne hcovers fun k _ => ?_
      have hgroup := (hvalues (rows.filter fun row => keyOf (keys.map Prod.fst) row = k)
        fun row hrow => htyped row (List.mem_filter.mp hrow).1).2
      rw [hkey] at hgroup ⊢
      exact hgroup
  | @orderBy columns lim off required s sortColumns n hsort =>
      obtain ⟨L, hperm, hsorted, rfl⟩ := hemits
      have hcolumns : sortColumns = columns.map fun c => (s.names.idxOf c.1, c.2) := by
        rw [← List.map_id sortColumns]
        refine map_eq_map_of_forall₂ (hsort.imp fun c k hk => ?_)
        exact Prod.ext (Schema.getColumnIndexByName_eq_ok.mp hk.1).2.symm hk.2
      rw [hcolumns] at hsorted
      exact .orderBy hchild hperm hsorted

end PlanNode

end ColumnarEngine
