import ColumnarEngine.Plan.WellFormed
import ColumnarEngine.Query.Breakers

/-!
# The stages of a query

A schedule read as a computation on rows, without batches, threads or operators. `Yields` relates
the rows of the table to the rows that reach the end of a pipeline: the first pipeline takes the
rows of the table in any order, a later one what the breaker before it emits. What the compilation
of a plan leaves open for its transforms and breakers is in `CastsAlong` and `Breaker.Exact`.
-/

namespace ColumnarEngine

open Found

/-- The bound of a `Limit`. -/
def TransformOperator.limit? : TransformOperator → Option ℕ
  | limit n => some n
  | _ => none

namespace PipelineSpec

/-- The transform operators. -/
def operators (p : PipelineSpec) : List TransformOperator := p.transforms.map CompiledTransform.op

/-- The transforms before the first `Limit`. -/
def rowTransforms (p : PipelineSpec) : List TransformOperator :=
  p.operators.takeWhile fun t => !t.isLimit

/-- The bound of the `Limit` at the end, if there is one. -/
def finalLimit (p : PipelineSpec) : Option ℕ := p.operators.getLast?.bind TransformOperator.limit?

/-- Only the last transform is a `Limit`, if any is. -/
def LimitLast (p : PipelineSpec) : Prop :=
  p.operators = p.rowTransforms ++ (p.finalLimit.map TransformOperator.limit).toList

instance (p : PipelineSpec) : Decidable p.LimitLast := by unfold LimitLast; infer_instance

theorem not_isLimit_rowTransforms (p : PipelineSpec) :
    ∀ t ∈ p.rowTransforms, t.isLimit = false := by
  intro t ht
  simpa using List.mem_takeWhile_imp ht

/-- The breaker at the end of the pipeline. -/
def sinkBreaker (heap : List Breaker) (p : PipelineSpec) : Option Breaker :=
  match p.sink with
  | some (.breaker ref) => heap[ref]?
  | _ => none

end PipelineSpec

/-- The rows that reach the end of the transforms of the last pipeline, before its `Limit`: `ps` are
the pipelines before. -/
inductive Yields (P : Platform) (heap : List Breaker) (table : List Row) :
    List PipelineSpec → PipelineSpec → List Row → Prop
  | first {p : PipelineSpec} {arranged : List Row} (hperm : arranged.Perm table) :
      Yields P heap table [] p (arranged.filterMap (onRows P p.rowTransforms))
  | next {ps : List PipelineSpec} {q p : PipelineSpec} {rows emitted : List Row} {b : Breaker}
      (hprev : Yields P heap table ps q rows) (hb : q.sinkBreaker heap = some b)
      (hemits : b.Emits P (cut q.finalLimit rows) emitted) :
      Yields P heap table (ps ++ [q]) p (emitted.filterMap (onRows P p.rowTransforms))

variable {P : Platform} {heap : List Breaker} {table : List Row}

/-- The first pipeline takes an arrangement of the table. -/
theorem Yields.of_nil {p : PipelineSpec} {rows : List Row} (h : Yields P heap table [] p rows) :
    ∃ arranged : List Row, arranged.Perm table ∧
      rows = arranged.filterMap (onRows P p.rowTransforms) := by
  generalize hps : ([] : List PipelineSpec) = ps at h
  cases h with
  | first hperm => exact ⟨_, hperm, rfl⟩
  | next _ _ _ => simp at hps

/-! ## Sizes -/

theorem length_cut_le {α : Type*} (limit : Option ℕ) (l : List α) :
    (cut limit l).length ≤ l.length := by
  cases limit with
  | none => exact le_rfl
  | some n => exact List.length_take_le' n l

/-- A breaker emits one row or no more than were sunk. -/
theorem Breaker.Emits.length_le {b : Breaker} {input rows : List Row} (h : b.Emits P input rows) :
    rows.length ≤ max 1 input.length := by
  cases b with
  | aggregation fs n names =>
      obtain rfl := h
      exact le_max_left _ _
  | groupBy idxs keyTypes fs n names =>
      obtain ⟨ks, hcovers, rfl⟩ := h
      rw [List.length_map, hcovers.length_eq]
      exact (numKeys_le_card _ _).trans (le_max_right _ _)
  | orderBy sortColumns types limit offset n =>
      obtain ⟨L, hperm, -, rfl⟩ := h
      rw [length_window, ← hperm.length_eq]
      refine le_trans ?_ (le_max_right _ _)
      cases limit with
      | none => exact Nat.sub_le _ _
      | some l => exact (min_le_right _ _).trans (Nat.sub_le _ _)

/-- No stage has more rows than the table, or one. -/
theorem Yields.length_le {ps : List PipelineSpec} {p : PipelineSpec} {rows : List Row}
    (h : Yields P heap table ps p rows) : rows.length ≤ max 1 table.length := by
  induction h with
  | first hperm =>
      rw [← hperm.length_eq]
      exact (List.length_filterMap_le _ _).trans (le_max_right _ _)
  | next _ _ hemits ih =>
      have hcut := hemits.length_le.trans
        (max_le (le_max_left _ _) ((length_cut_le _ _).trans ih))
      exact (List.length_filterMap_le _ _).trans hcut

/-! ## What compilation leaves open -/

/-- The casts of the transforms match, and a literal finds a column, or no selection made before. -/
def CastsAlong : List Field → Bool → List CompiledTransform → Prop
  | _, _, [] => True
  | fields, selected, t :: ts => t.op.CastsMatch (typesOf fields) ∧
      t.op.LiteralsFit (typesOf fields) selected ∧
      CastsAlong (t.outputFields fields) (selected || t.op.selects) ts

/-- Compiled transforms are placed over the columns they fit. -/
theorem CastsAlong.placed {fields : List Field} {selected : Bool} {ts : List CompiledTransform}
    (h : CastsAlong fields selected ts) (hfits : TransformsFit fields ts) :
    Placed (typesOf fields) selected (ts.map CompiledTransform.op) ∧
      typesAfter (typesOf fields) (ts.map CompiledTransform.op) =
        typesOf (transformsFields fields ts) := by
  induction ts generalizing fields selected with
  | nil => exact ⟨trivial, rfl⟩
  | cons t ts ih =>
      obtain ⟨hcasts, hliterals, hrest⟩ := h
      obtain ⟨hiff, houtput⟩ := CompiledTransform.wellTyped_iff hfits.1
      obtain ⟨hplaced, htypes⟩ := ih hrest hfits.2
      refine ⟨⟨hiff.mpr hcasts, hliterals, ?_⟩, ?_⟩
      · rw [houtput hcasts]
        exact hplaced
      · rw [List.map_cons, typesAfter, List.foldl_cons, houtput hcasts]
        exact htypes

namespace Breaker

/-- Without floating point in sums, distinct counts and sort keys; the states of the sums have room
for the rows (of each group), the keys are fewer than a group id can number, and a sort has columns,
and a limit and rows that a row index can number. -/
def Exact (fields : List Field) (input : List Row) : Breaker → Prop
  | aggregation fs _ _ => ∀ f ∈ fs, f.kind.Exact ∧ f.HasRoom input
  | groupBy idxs _ fs _ _ =>
      (∀ f ∈ fs, f.kind.Exact ∧ ∀ k, f.HasRoom (group (keyOf idxs) input k)) ∧
        numKeys (keyOf idxs) (input : Multiset Row) < 2 ^ 32
  | orderBy sortColumns _ limit offset _ => fields ≠ [] ∧
      (∀ s ∈ sortColumns, ((typesOf fields).getD s.1 default).isFloating = false) ∧
        OrderBySinkSourceOperator.FitsIndex limit offset ∧ input.length < 2 ^ 32

variable {b : Breaker} {fields : List Field} {input : List Row}

theorem map_columnType_of_fit {fs : List AggregationFunction} {names : List Bytes}
    (hfit : AggregatesFit fields fs names) :
    typesOf (aggregateFields fs names) = fs.map AggregationFunction.columnType := by
  obtain ⟨hlength, -⟩ := hfit
  rw [typesOf, aggregateFields, List.map_zipWith]
  apply List.ext_getElem (by simp [hlength])
  intro i _ _
  simp

/-- A compiled breaker handles what it is exact for, and its columns are those of the plan. -/
theorem Fits.handles (hfits : b.Fits fields) (hexact : b.Exact fields input) :
    b.Handles (typesOf fields) input ∧
      b.outputTypes (typesOf fields) = typesOf (b.outputFields fields) := by
  cases b with
  | aggregation fs n names =>
      refine ⟨fun f hf => ⟨⟨hfits.2 f hf, (hexact f hf).1⟩, (hexact f hf).2⟩, ?_⟩
      exact (map_columnType_of_fit hfits).symm
  | groupBy idxs keyTypes fs n names =>
      obtain ⟨hidxs, rfl, hfit⟩ := hfits
      obtain ⟨haggs, hbound⟩ := hexact
      refine ⟨⟨?_, fun f hf => ⟨⟨hfit.2 f hf, (haggs f hf).1⟩, (haggs f hf).2⟩, hbound⟩, ?_⟩
      · show List.Forall₂ _ idxs ((idxs.map fun i => fields.getD i default).map Field.type)
        rw [List.map_map, List.forall₂_map_right_iff, List.forall₂_same]
        intro i hi
        simp [List.getElem?_eq_getElem (hidxs i hi)]
      · rw [outputTypes, outputFields, ← map_columnType_of_fit hfit]
        exact List.map_append.symm
  | orderBy sortColumns accumTypes limit offset n =>
      obtain ⟨hsort, rfl⟩ := hfits
      obtain ⟨hne, hkeys, hindex, hlength⟩ := hexact
      refine ⟨⟨by simpa using hne, rfl, ?_, hindex, hlength⟩, rfl⟩
      intro s hs
      have hlt : s.1 < (typesOf fields).length := by simpa using hsort s hs
      refine ⟨_, List.getElem?_eq_getElem hlt, ?_⟩
      rw [← List.getD_eq_getElem _ default hlt]
      exact hkeys s hs

end Breaker

/-! ## Examples -/

/-- The sum of a column over the rows of the table with the value 5. -/
def sumA : PlanNode := .aggregate filterA [] [⟨.sum, ascii "a", []⟩]

/-- Its first pipeline: the scan and the filter. -/
def scanPipelineA : PipelineSpec where
  source := some (.scan ⟨tableA, [0], 1, 0, false⟩)
  transforms := [⟨.filter (.compare .eq .int32 0 (.int 5)), []⟩]
  sink := some (.breaker 0)

/-- Its second one: the sum. -/
def sumPipelineA : PipelineSpec where
  source := some (.breaker 0)
  sink := some .result

/-- What the plan is compiled to. -/
def contextA : BuildContext where
  pipelines := [sumPipelineA, scanPipelineA]
  breakers := [.aggregation [⟨.typed .int32 .int64 .sum, 0, .int64⟩] 1 [ascii "sum_a"]]
  currentPipeline := 0
  completedPipelines := [1, 0]
  schema := ⟨[⟨ascii "sum_a", .int64⟩]⟩
  numThreads := 1

theorem compile_sumA : compile Platform.integral sumA 1 = .ok contextA := rfl

/-- The values 3 and 5 are filtered and summed up. -/
theorem yields_sumA :
    Yields Platform.integral contextA.breakers [[.int 3], [.int 5]] [scanPipelineA] sumPipelineA
      [[.int 5]] := by
  have hscan : Yields Platform.integral contextA.breakers [[.int 3], [.int 5]] [] scanPipelineA
      [[.int 5]] := .first (.refl [[.int 3], [.int 5]])
  have hsum : (Breaker.aggregation [⟨.typed .int32 .int64 .sum, 0, .int64⟩] 1 [ascii "sum_a"]).Emits
      Platform.integral [[.int 5]] [[.int 5]] := rfl
  exact .next hscan rfl hsum

/-- A table with two `INT32` columns in two chunks, of three rows and of two. -/
def tableB : MetadataTable :=
  ⟨[⟨ascii "a", .int32, [0, 12], [12, 8]⟩, ⟨ascii "b", .int32, [20, 32], [12, 8]⟩], 5⟩

/-- The key `a ≠ 3` with the least sum of `b + 1`. -/
def topB : PlanNode :=
  let filtered := PlanNode.filter (.scan [ascii "a", ascii "b"] tableB)
    (.notEq (ascii "a") .int32 (.int 3))
  let added := PlanNode.scalar filtered [.addConstant (ascii "b") .int32 (.int 1) (ascii "c")]
  let summed := PlanNode.aggregate added [ascii "a"] [⟨.sum, ascii "c", []⟩]
  .limit (.orderBy summed [(ascii "sum_c", false)] none none) 1

/-- The first of its three pipelines filters, projects and groups. -/
def groupPipelineB : PipelineSpec where
  source := some (.scan ⟨tableB, [0, 1], 2, 0, false⟩)
  transforms := [⟨.filter (.compare .notEq .int32 0 (.int 3)), []⟩,
    ⟨.scalar [.addConstant .int32 1 (.int 1)], [ascii "c"]⟩]
  sink := some (.breaker 0)

/-- What the plan is compiled to, for two threads. -/
def contextB : BuildContext where
  pipelines := [
    { source := some (.breaker 1), transforms := [⟨.limit 1, []⟩], sink := some .result },
    { source := some (.breaker 0), sink := some (.breaker 1) },
    groupPipelineB]
  breakers := [.groupBy [0] [.int32] [⟨.typed .int32 .int64 .sum, 2, .int64⟩] 2 [ascii "sum_c"],
    .orderBy [(1, false)] [.int32, .int64] none none 2]
  currentPipeline := 0
  completedPipelines := [2, 1, 0]
  schema := ⟨[⟨ascii "a", .int32⟩, ⟨ascii "sum_c", .int64⟩]⟩
  numThreads := 2

theorem compile_topB : compile Platform.integral topB 2 = .ok contextB := rfl

end ColumnarEngine
