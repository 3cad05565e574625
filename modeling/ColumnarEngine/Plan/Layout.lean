import ColumnarEngine.Exec.Aggregates
import ColumnarEngine.Plan.Nodes

/-!
# Physical layout of a compiled plan

The columns a compiled pipeline produces by construction, from the objects it is made of: a scan
produces the columns at its indices of the table, a `ScalarTransformOperator` appends one column for
each function, `Drop` and `Reorder` keep the columns at their indices, an aggregation produces one
column for each function and a GROUP BY one for each key before them. `Fits` says that every index
of an operator is an index into its input and every class an operator casts to is that of the
column, where a scalar function counts as producing the type its expression declares.

The loops of `BuildPipelines` over expressions and column names create operators that fit the schema
and extend the schema by what they produce.
-/

namespace ColumnarEngine

open Found

/-- The types of a list of columns. -/
abbrev typesOf (fields : List Field) : List ColumnType := fields.map Field.type

/-- The columns a scan emits. -/
def ScanOperator.fields (op : ScanOperator) : List Field :=
  op.columnIndices.map fun i =>
    ⟨(op.metadata.columnMeta.getD i default).name, (op.metadata.columnMeta.getD i default).type⟩

/-- The columns after the functions of a `ScalarTransformOperator` have appended theirs. -/
def appendScalars : List Field → List ScalarFunction → List Bytes → List Field
  | input, f :: fs, name :: names =>
      appendScalars (input ++ [⟨name, f.declaredType (typesOf input)⟩]) fs names
  | input, _, _ => input

/-- One name for each function, and every function reads columns of its classes where its casts
match. -/
def ScalarsFit : List Field → List ScalarFunction → List Bytes → Prop
  | input, f :: fs, name :: names =>
      (f.CastsMatch (typesOf input) → f.WellTyped (typesOf input)) ∧
        ScalarsFit (input ++ [⟨name, f.declaredType (typesOf input)⟩]) fs names
  | _, [], [] => True
  | _, _, _ => False

namespace CompiledTransform

/-- The columns after the transform. -/
def outputFields (input : List Field) (t : CompiledTransform) : List Field :=
  match t.op with
  | .filter _ => input
  | .scalar fs => appendScalars input fs t.outputNames
  | .drop idxs => idxs.map fun i => input.getD i default
  | .reorder idxs => idxs.map fun i => input.getD i default
  | .limit _ => input

/-- The transform fits its input. -/
def Fits (input : List Field) (t : CompiledTransform) : Prop :=
  match t.op with
  | .filter f => f.WellTyped (typesOf input)
  | .scalar fs => ScalarsFit input fs t.outputNames
  | .drop idxs => idxs.Nodup ∧ ∀ i ∈ idxs, i < input.length
  | .reorder idxs => ∀ i ∈ idxs, i < input.length
  | .limit _ => True

end CompiledTransform

/-- The columns after a list of transforms. -/
def transformsFields (input : List Field) (ts : List CompiledTransform) : List Field :=
  ts.foldl CompiledTransform.outputFields input

/-- Every transform of a list fits the columns after those before it. -/
def TransformsFit : List Field → List CompiledTransform → Prop
  | _, [] => True
  | input, t :: ts => t.Fits input ∧ TransformsFit (t.outputFields input) ts

theorem transformsFit_append {input : List Field} {ts : List CompiledTransform}
    {t : CompiledTransform} (hts : TransformsFit input ts)
    (ht : t.Fits (transformsFields input ts)) :
    TransformsFit input (ts ++ [t]) := by
  induction ts generalizing input with
  | nil => exact ⟨ht, trivial⟩
  | cons t' ts ih => exact ⟨hts.1, ih hts.2 ht⟩

/-- The columns of the aggregates of a breaker. -/
def aggregateFields (fs : List AggregationFunction) (names : List Bytes) : List Field :=
  fs.zipWith (fun f name => ⟨name, f.columnType⟩) names

/-- Every aggregation function is placed over the input and has a name. -/
def AggregatesFit (input : List Field) (fs : List AggregationFunction) (names : List Bytes) :
    Prop :=
  fs.length = names.length ∧ ∀ f ∈ fs, f.Placed (typesOf input)

namespace Breaker

/-- The columns the breaker emits. -/
def outputFields (input : List Field) : Breaker → List Field
  | aggregation fs _ names => aggregateFields fs names
  | groupBy idxs _ fs _ names =>
      (idxs.map fun i => input.getD i default) ++ aggregateFields fs names
  | orderBy _ _ _ _ _ => input

/-- The breaker fits its input: its key and accumulator types are those of the columns. -/
def Fits (input : List Field) : Breaker → Prop
  | aggregation fs _ names => AggregatesFit input fs names
  | groupBy idxs keyTypes fs _ names =>
      (∀ i ∈ idxs, i < input.length) ∧ keyTypes = typesOf (idxs.map fun i => input.getD i default) ∧
        AggregatesFit input fs names
  | orderBy sortColumns accumTypes _ _ _ =>
      (∀ s ∈ sortColumns, s.1 < input.length) ∧ accumTypes = typesOf input

end Breaker

namespace PipelineSpec

variable (heap : List Breaker) (input : List Field)

/-- The columns the source of a pipeline emits; `input` are those that reach the sink of the
pipeline before. -/
def sourceFields (p : PipelineSpec) : List Field :=
  match p.source with
  | some (.scan op) => op.fields
  | some (.breaker ref) => (heap[ref]?).elim [] fun b => b.outputFields input
  | none => []

/-- The columns that reach the sink of a pipeline. -/
def outputFields (p : PipelineSpec) : List Field :=
  transformsFields (p.sourceFields heap input) p.transforms

end PipelineSpec

/-- The columns that reach the last sink of a sequence of pipelines. -/
def scheduleFields (heap : List Breaker) (ps : List PipelineSpec) : List Field :=
  ps.foldl (fun input p => p.outputFields heap input) []

/-! ## The loops of `BuildPipelines` -/

/-- The scan and its schema look a name up in the same column. -/
theorem scanField_of_findColumn {metadata : MetadataTable} {name : Bytes} {i : ℕ} {field : Field}
    (hi : ScanOperator.findColumn metadata.columnMeta name = .ok i)
    (hfield : scanField metadata name = .ok field) :
    i < metadata.columnMeta.length ∧
      Field.mk (metadata.columnMeta.getD i default).name
        (metadata.columnMeta.getD i default).type = field := by
  have hfind := findIdx?_key_eq_some.mpr (ScanOperator.findColumn_eq_ok.mp hi)
  obtain ⟨c, hc, -, hfound⟩ := exists_of_findIdx?_key hfind
  obtain ⟨hlt, hget⟩ := List.getElem?_eq_some_iff.mp hc
  rw [scanField, hfound] at hfield
  refine ⟨hlt, ?_⟩
  rw [List.getD_eq_getElem _ _ hlt, hget]
  exact Except.ok.inj hfield

/-- The scan finds the columns of its fields. -/
theorem scan_fields {names : List Bytes} {metadata : MetadataTable} {op : ScanOperator}
    {fields : List Field} (hop : ScanOperator.make names metadata = .ok op)
    (hfields : names.mapM (scanField metadata) = .ok fields) :
    op.fields = fields ∧ ∀ i ∈ op.columnIndices, i < op.metadata.columnMeta.length := by
  unfold ScanOperator.make at hop
  rw [except_bind_eq_ok] at hop
  obtain ⟨idxs, hidxs, hop⟩ := hop
  obtain rfl := Except.ok.inj hop
  dsimp only [ScanOperator.fields]
  clear hop
  induction names generalizing idxs fields with
  | nil =>
      obtain rfl := Except.ok.inj hidxs
      obtain rfl := Except.ok.inj hfields
      simp
  | cons name names ih =>
      rw [List.mapM_cons, except_bind_eq_ok] at hidxs hfields
      obtain ⟨i, hi, hidxs⟩ := hidxs
      obtain ⟨field, hfield, hfields⟩ := hfields
      rw [except_bind_eq_ok] at hidxs hfields
      obtain ⟨idxs', hidxs', hidxs⟩ := hidxs
      obtain ⟨fields', hfields', hfields⟩ := hfields
      obtain rfl := Except.ok.inj hidxs
      obtain rfl := Except.ok.inj hfields
      obtain ⟨hmap, hlt⟩ := ih hfields' idxs' hidxs'
      obtain ⟨hi, hfield⟩ := scanField_of_findColumn hi hfield
      refine ⟨by rw [List.map_cons, hfield, hmap], ?_⟩
      intro k hk
      rcases List.mem_cons.mp hk with rfl | hk
      · exact hi
      · exact hlt k hk

/-- The loop over scalar expressions. -/
theorem createScalars_eq_ok {P : Platform} {exprs : List ScalarExpression} {s s' : Schema}
    {fs : List ScalarFunction} (h : createScalars P exprs s = .ok (fs, s')) :
    s'.fields = appendScalars s.fields fs (exprs.map (ScalarExpression.getOutputName P)) ∧
      ScalarsFit s.fields fs (exprs.map (ScalarExpression.getOutputName P)) := by
  induction exprs generalizing s fs with
  | nil =>
      obtain ⟨rfl, rfl⟩ := Prod.mk.inj (Except.ok.inj h)
      exact ⟨rfl, trivial⟩
  | cons expr exprs ih =>
      rw [createScalars, except_bind_eq_ok] at h
      obtain ⟨⟨f, s₁⟩, hf, h⟩ := h
      rw [except_bind_eq_ok] at h
      obtain ⟨⟨fs', s₂⟩, hfs, h⟩ := h
      obtain ⟨rfl, rfl⟩ := Prod.mk.inj (Except.ok.inj h)
      obtain ⟨rfl, htyped⟩ := ScalarExpression.createScalarFunction_eq_ok hf
      obtain ⟨hfields, hfit⟩ := ih hfs
      exact ⟨hfields, htyped, hfit⟩

/-- The loop over aggregate expressions. -/
theorem createAggregates_eq_ok {exprs : List AggregateExpression} {child out out' : Schema}
    {fs : List AggregationFunction} (h : createAggregates child exprs out = .ok (fs, out')) :
    out'.fields = out.fields ++
        aggregateFields fs (exprs.map AggregateExpression.getOutputName) ∧
      AggregatesFit child.fields fs (exprs.map AggregateExpression.getOutputName) := by
  induction exprs generalizing out fs with
  | nil =>
      obtain ⟨rfl, rfl⟩ := Prod.mk.inj (Except.ok.inj h)
      exact ⟨by simp [aggregateFields], rfl, by simp⟩
  | cons expr exprs ih =>
      rw [createAggregates, except_bind_eq_ok] at h
      obtain ⟨⟨f, out₁⟩, hf, h⟩ := h
      rw [except_bind_eq_ok] at h
      obtain ⟨⟨fs', out₂⟩, hfs, h⟩ := h
      obtain ⟨rfl, rfl⟩ := Prod.mk.inj (Except.ok.inj h)
      obtain ⟨ind, t, outType, hlookup, hfor, rfl⟩ := AggregateExpression.create_eq_ok hf
      obtain ⟨hfields, hlength, hplaced⟩ := ih hfs
      obtain ⟨hcolumnType, houtput⟩ := AggregateExpression.functionFor_columnType hfor
      obtain ⟨hindex, hinput⟩ := AggregateExpression.functionFor_input hfor
      refine ⟨?_, by simp [hlength], ?_⟩
      · rw [hfields, ← hcolumnType]
        simp [aggregateFields, Schema.addColumn]
      · intro g hg
        rcases List.mem_cons.mp hg with rfl | hg
        · refine ⟨?_, houtput⟩
          intro t' ht'
          obtain ⟨hcls, rfl⟩ := hinput t' ht'
          obtain ⟨hind, htype⟩ := AggregateExpression.lookup_eq_ok hlookup hcls
          rw [hindex]
          exact Schema.types_getElem?_of_lookup hind htype
        · exact hplaced g hg

/-- Indices paired with the fields at them. -/
theorem map_snd_eq {fields : List Field} {ks : List (ℕ × Field)}
    (h : ∀ k ∈ ks, fields[k.1]? = some k.2) :
    (∀ i ∈ ks.map Prod.fst, i < fields.length) ∧
      ks.map Prod.snd = (ks.map Prod.fst).map fun i => fields.getD i default := by
  constructor
  · rintro i hi
    obtain ⟨k, hk, rfl⟩ := List.mem_map.mp hi
    exact (List.getElem?_eq_some_iff.mp (h k hk)).1
  · rw [List.map_map]
    apply List.map_congr_left
    intro k hk
    simp [h k hk]

/-- The loop over the group-by columns. -/
theorem groupByKeys_eq_ok {child : Schema} {names : List Bytes} {keys : List (ℕ × Field)}
    (h : groupByKeys child names = .ok keys) : ∀ k ∈ keys, child.fields[k.1]? = some k.2 := by
  intro k hk
  obtain ⟨name, -, hkey⟩ := exists_of_forall₂_right (forall₂_of_mapM_ok h) hk
  rw [except_bind_eq_ok] at hkey
  obtain ⟨i, hi, hkey⟩ := hkey
  rw [except_bind_eq_ok] at hkey
  obtain ⟨t, ht, hkey⟩ := hkey
  obtain rfl := Except.ok.inj hkey
  obtain ⟨f, hf, rfl, htype⟩ := Schema.getElem?_of_getColumnIndexByName hi
  obtain rfl := Except.ok.inj (htype.symm.trans ht)
  exact hf

/-- The columns a `DropNode` keeps. -/
theorem keptColumns_eq (fields : List Field) (columnsToDrop : List Bytes) :
    ((keptColumns fields columnsToDrop).map Prod.fst).Nodup ∧
      ∀ k ∈ keptColumns fields columnsToDrop, fields[k.1]? = some k.2 := by
  constructor
  · have hsub : ((keptColumns fields columnsToDrop).map Prod.fst).Sublist
        (fields.zipIdx.map Prod.snd) := by
      unfold keptColumns
      rw [List.map_map]
      exact List.filter_sublist.map _
    apply List.Nodup.sublist hsub
    rw [List.zipIdx_map_snd]
    exact List.nodup_range'
  · intro k hk
    obtain ⟨f, hf, rfl⟩ := List.mem_map.mp hk
    exact List.mk_mem_zipIdx_iff_getElem?.mp (List.mem_filter.mp hf).1

/-- The columns a `ReorderNode` finds. -/
theorem reorderColumns_eq_ok {fields : List Field} {names : List Bytes} {found : List (ℕ × Field)}
    (h : names.mapM (reorderColumn fields) = .ok found) :
    ∀ k ∈ found, fields[k.1]? = some k.2 := by
  intro k hk
  obtain ⟨name, -, hfound⟩ := exists_of_forall₂_right (forall₂_of_mapM_ok h) hk
  unfold reorderColumn at hfound
  split at hfound
  · next field i hfind =>
      obtain rfl := Except.ok.inj hfound
      exact List.mk_mem_zipIdx_iff_getElem?.mp (List.mem_of_find?_eq_some hfind)
  · cases hfound

end ColumnarEngine
