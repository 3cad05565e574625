import ColumnarEngine.Exec.GroupSumOverflow
import ColumnarEngine.Io.ScanFile
import ColumnarEngine.Query.BreakerRows
import ColumnarEngine.Query.PipelineRows

/-!
# The objects that pipelines share

What `Pipeline::sink` and `Pipeline::source` point to, with the virtual functions of `ISinkOperator`
and `ISourceOperator`. A breaker is the sink of one pipeline and, with its state after `Finalize`,
the source of the next. `Emits` is what a breaker is for, as a relation between the rows sunk and
the rows emitted; a breaker that `Handles` its input is defined on every sequence of calls and emits
as it should (`Handles.run`).
-/

namespace ColumnarEngine

open Found

/-- What a `sink` points to. -/
inductive SinkObject
  | result (batches : List RecordBatch)
  | aggregation (op : AggregationSinkSourceOperator)
  | groupBy (op : GroupBySinkSourceOperator)
  | orderBy (op : OrderBySinkSourceOperator)

/-- What a `source` points to. -/
inductive SourceObject
  | scan (op : ScanOperator)
  | breaker (object : SinkObject)

/-- The breaker that `BuildPipelines` has constructed. -/
def Breaker.create (P : Platform) : Breaker → SinkObject
  | aggregation fs numThreads _ => .aggregation (.create P fs numThreads)
  | groupBy idxs keyTypes fs numThreads _ => .groupBy (.create idxs keyTypes fs numThreads)
  | orderBy sortColumns types limit offset numThreads =>
      .orderBy (.create sortColumns types limit offset numThreads)

namespace SinkObject

variable (P : Platform) (A : SortAlgorithms ℕ) (ord : IterationOrder)

/-- `Sink`. -/
def sink (object : SinkObject) (batch : RecordBatch) (threadId : ℕ) : Option SinkObject :=
  match object with
  | result batches => (resultSink.sink batches batch threadId).map result
  | aggregation op => (op.sink P batch threadId).map aggregation
  | groupBy op => (op.sink P batch threadId).map groupBy
  | orderBy op => (op.sink P A batch threadId).map orderBy

/-- `Finalize`. -/
def finalize : SinkObject → Option SinkObject
  | result batches => (resultSink.finalize batches).map result
  | aggregation op => (op.finalize P).map aggregation
  | groupBy op => (op.finalize P ord).map groupBy
  | orderBy op => (op.finalize P A).map orderBy

/-- The objects as sinks. -/
def operator : SinkOperator SinkObject where
  sink := sink P A
  finalize := finalize P A ord

/-- `GetData` of a breaker; the result sink is no source. -/
def getData : SinkObject → Option (Option RecordBatch × SinkObject)
  | result _ => none
  | aggregation op => some (op.getData.1, aggregation op.getData.2)
  | groupBy op => some (op.getData.1, groupBy op.getData.2)
  | orderBy op => some (op.getData.1, orderBy op.getData.2)

/-- What a breaker has still to emit. -/
def pending (object : SinkObject) : List RecordBatch :=
  object.getData.elim [] fun r => r.1.toList

/-- The object is a source. -/
def IsBreaker (object : SinkObject) : Prop := object.getData.isSome

variable {P A ord} {object object' : SinkObject} {r : Option RecordBatch}

/-- A breaker emits its batch once. -/
theorem pending_of_getData (h : object.getData = some (r, object')) :
    object.pending = r.toList ∧ object'.pending = [] ∧ object'.IsBreaker := by
  refine ⟨by rw [pending, h]; rfl, ?_⟩
  cases object with
  | result batches => cases h
  | aggregation op =>
      obtain ⟨-, rfl⟩ := Prod.mk.inj (Option.some.inj h)
      refine ⟨?_, rfl⟩
      by_cases hemitted : op.emitted <;>
        simp [pending, getData, AggregationSinkSourceOperator.getData, hemitted]
  | groupBy op =>
      obtain ⟨-, rfl⟩ := Prod.mk.inj (Option.some.inj h)
      refine ⟨?_, rfl⟩
      by_cases hemitted : op.emitted <;>
        simp [pending, getData, GroupBySinkSourceOperator.getData, hemitted]
  | orderBy op =>
      obtain ⟨-, rfl⟩ := Prod.mk.inj (Option.some.inj h)
      refine ⟨?_, rfl⟩
      by_cases hemitted : op.emitted <;>
        simp [pending, getData, OrderBySinkSourceOperator.getData, hemitted]

end SinkObject

namespace SourceObject

variable (reader : ℕ → ℕ → Option Column)

/-- `GetData`. -/
def getData : SourceObject → Option (Option RecordBatch × SourceObject)
  | scan op => (op.getData reader).map fun r => (r.1, scan r.2)
  | breaker object => object.getData.map fun r => (r.1, breaker r.2)

/-- What the source has still to emit. -/
def pending : SourceObject → List RecordBatch
  | scan op => op.pending reader
  | breaker object => object.pending

/-- The objects as sources. -/
def operator : SourceOperator SourceObject where
  getData := getData reader
  pending := pending reader
  pending_eq := by
    intro s r s' h
    cases s with
    | scan op =>
        obtain ⟨⟨r, op'⟩, hget, heq⟩ := Option.map_eq_some_iff.mp h
        obtain ⟨rfl, rfl⟩ := Prod.mk.inj heq
        exact ScanOperator.pending_eq reader hget
    | breaker object =>
        obtain ⟨⟨r, object'⟩, hget, heq⟩ := Option.map_eq_some_iff.mp h
        obtain ⟨rfl, rfl⟩ := Prod.mk.inj heq
        obtain ⟨hpending, hnone, -⟩ := SinkObject.pending_of_getData hget
        rw [pending, pending, hpending, hnone, List.append_nil]
  exhausted := by
    intro s s' h
    cases s with
    | scan op =>
        obtain ⟨⟨r, op'⟩, hget, heq⟩ := Option.map_eq_some_iff.mp h
        obtain ⟨rfl, rfl⟩ := Prod.mk.inj heq
        exact ScanOperator.exhausted reader hget
    | breaker object =>
        obtain ⟨⟨r, object'⟩, hget, heq⟩ := Option.map_eq_some_iff.mp h
        obtain ⟨rfl, rfl⟩ := Prod.mk.inj heq
        exact (SinkObject.pending_of_getData hget).1

/-- The source can be read to its end. -/
def Readable : SourceObject → Prop
  | scan op => op.Readable reader
  | breaker object => object.IsBreaker

/-- It stays so. -/
theorem reads : (operator reader).Reads (Readable reader) := by
  intro s hs
  cases s with
  | scan op =>
      obtain ⟨⟨r, op'⟩, hget⟩ := ScanOperator.exists_getData hs
      have hop' : Readable reader (scan op') := ScanOperator.readable_getData hs hget
      exact ⟨r, _, congrArg (Option.map _) hget, hop'⟩
  | breaker object =>
      obtain ⟨⟨r, object'⟩, hget⟩ := Option.isSome_iff_exists.mp hs
      have hobject' : Readable reader (breaker object') := (SinkObject.pending_of_getData hget).2.2
      exact ⟨r, _, congrArg (Option.map _) hget, hobject'⟩

end SourceObject

/-! ## What a breaker is for -/

namespace Breaker

/-- The number of threads the breaker has states for; the global operator has its functions made for
it. -/
def threads : Breaker → ℕ
  | aggregation _ numThreads _ => numThreads
  | groupBy _ _ _ numThreads _ => numThreads
  | orderBy _ _ _ _ numThreads => numThreads

/-- ORDER BY, whose result has no columns if it keeps no row. -/
def isOrderBy : Breaker → Bool
  | orderBy _ _ _ _ _ => true
  | _ => false

/-- The types of the columns it emits. -/
def outputTypes (types : List ColumnType) : Breaker → List ColumnType
  | aggregation fs _ _ => fs.map AggregationFunction.columnType
  | groupBy _ keyTypes fs _ _ => keyTypes ++ fs.map AggregationFunction.columnType
  | orderBy _ _ _ _ _ => types

/-- The rows it emits for rows sunk: one row of aggregates, a row for each key in any order, or the
window of a sorted arrangement. -/
def Emits (P : Platform) (input : List Row) : Breaker → List Row → Prop
  | aggregation fs _ _, rows => rows = [fs.map fun f => f.valueOf P input]
  | groupBy idxs _ fs _ _, rows =>
      ∃ ks, Covers (keyOf idxs) ks input ∧ rows = ks.map (groupRow P idxs fs input)
  | orderBy sortColumns _ limit offset _, rows =>
      ∃ L : List Row, L.Perm input ∧ L.Pairwise (NotAfter (lexBefore sortColumns)) ∧
        rows = window limit offset L

/-- Every addition of a sequence of `Sink` calls and of the merge after it fits its state. -/
def AddsFit (P : Platform) (ord : IterationOrder) (calls : List (RecordBatch × ℕ)) : Breaker → Prop
  | aggregation fs numThreads _ => (AggregationSinkSourceOperator.create P fs numThreads).AddsFit P
      calls
  | groupBy idxs keyTypes fs numThreads _ =>
      (GroupBySinkSourceOperator.create idxs keyTypes fs numThreads).AddsFit P ord calls
  | orderBy _ _ _ _ _ => True

/-- It can take the rows, in columns of the types: the functions are free of floating point and
their states have room for the rows, the keys are fewer than a group id can number, and a sort has
columns, exact keys and a limit and rows that a row index can number. -/
def Handles (types : List ColumnType) (input : Multiset Row) : Breaker → Prop
  | aggregation fs _ _ => ∀ f ∈ fs, f.Declared types ∧ f.HasRoom input
  | groupBy idxs keyTypes fs _ _ => KeyColumns types idxs keyTypes ∧
      (∀ f ∈ fs, f.Declared types ∧ ∀ k, f.HasRoom (group (keyOf idxs) input k)) ∧
        numKeys (keyOf idxs) input < 2 ^ 32
  | orderBy sortColumns accumTypes limit offset _ => types ≠ [] ∧ accumTypes = types ∧
      PlainSortKeys types sortColumns ∧ OrderBySinkSourceOperator.FitsIndex limit offset ∧
        input.card < 2 ^ 32

variable {P : Platform} {A : SortAlgorithms ℕ} {ord : IterationOrder} {b : Breaker}
  {types : List ColumnType} {input input' : Multiset Row}

theorem Handles.mono (h : b.Handles types input) (hle : input' ≤ input) :
    b.Handles types input' := by
  cases b with
  | aggregation fs n names => exact fun f hf => ⟨(h f hf).1, (h f hf).2.mono hle⟩
  | groupBy idxs keyTypes fs n names =>
      obtain ⟨hkeys, haggs, hbound⟩ := h
      refine ⟨hkeys, fun f hf => ⟨(haggs f hf).1, fun k => ?_⟩, (numKeys_mono hle).trans_lt hbound⟩
      exact ((haggs f hf).2 k).mono (Multiset.filter_le_filter _ hle)
  | orderBy sortColumns accumTypes limit offset n =>
      obtain ⟨hne, htypes, hkeys, hfits, hcard⟩ := h
      exact ⟨hne, htypes, hkeys, hfits, (Multiset.card_le_card hle).trans_lt hcard⟩

end Breaker

namespace SinkObject

variable {P : Platform} {A : SortAlgorithms ℕ} {ord : IterationOrder}
  {calls : List (RecordBatch × ℕ)}

/-- Calls on an object of one of the kinds. -/
theorem sinkAll_map {α : Type*} (make : α → SinkObject) (sinkOne : α → RecordBatch → ℕ → Option α)
    (hsink : ∀ a b t, sink P A (make a) b t = (sinkOne a b t).map make) (a : α) :
    (operator P A ord).sinkAll (make a) calls =
      (calls.foldlM (fun a c => sinkOne a c.1 c.2) a).map make := by
  induction calls generalizing a with
  | nil => rfl
  | cons c calls ih =>
      rw [SinkOperator.sinkAll, List.foldlM_cons, List.foldlM_cons]
      show (sink P A (make a) c.1 c.2).bind _ = _
      rw [hsink]
      cases hone : sinkOne a c.1 c.2 with
      | none => rfl
      | some a' => exact ih a'

/-- The result sink keeps the batches. -/
theorem sinkAll_result (batches : List RecordBatch) :
    (operator P A ord).sinkAll (result batches) calls =
      some (result (batches ++ calls.map Prod.fst)) := by
  rw [sinkAll_map result resultSink.sink fun _ _ _ => rfl]
  have hfold : calls.foldlM (fun a c => resultSink.sink a c.1 c.2) batches =
      some (batches ++ calls.map Prod.fst) := by
    induction calls generalizing batches with
    | nil => rw [List.map_nil, List.append_nil]; rfl
    | cons c calls ih =>
        rw [List.foldlM_cons, List.map_cons]
        show calls.foldlM _ (batches ++ [c.1]) = _
        rw [ih, List.append_assoc, List.singleton_append]
  rw [hfold, Option.map_some]

end SinkObject

/-- **A breaker does what it is for** on every sequence of calls with rows that it handles. -/
theorem Breaker.Handles.run {P : Platform} {b : Breaker} {types : List ColumnType}
    {calls : List (RecordBatch × ℕ)} (h : b.Handles types (sunkRows calls)) (A : SortAlgorithms ℕ)
    (ord : IterationOrder) (hn : 0 < b.threads)
    (hcalls : ValidCalls types b.threads calls) :
    ∃ called final batch rows,
      (SinkObject.operator P A ord).sinkAll (b.create P) calls = some called ∧
      (SinkObject.operator P A ord).finalize called = some final ∧ final.IsBreaker ∧
      final.pending = [batch] ∧ b.Emits P (sunkRows calls) rows ∧
      (batch.Carries (b.outputTypes types) rows ∨
        b.isOrderBy = true ∧ batch = ⟨0, none, []⟩ ∧ rows = []) := by
  cases b with
  | aggregation fs n names =>
      obtain ⟨op, op', batch, hop, hfinal, hdata, hcarries⟩ :=
        AggregationSinkSourceOperator.result_row (P := P) hn (fun f hf => (h f hf).1) hcalls
      refine ⟨.aggregation op, .aggregation op', batch, _, ?_, ?_, rfl, ?_, rfl, .inl hcarries⟩
      · rw [Breaker.create,
          SinkObject.sinkAll_map .aggregation (AggregationSinkSourceOperator.sink P)
            fun _ _ _ => rfl]
        exact congrArg (Option.map _) hop
      · exact congrArg (Option.map _) hfinal
      · rw [SinkObject.pending, SinkObject.getData, Option.elim_some, hdata, Option.toList_some]
  | groupBy idxs keyTypes fs n names =>
      obtain ⟨hkeys, haggs, hbound⟩ := h
      obtain ⟨op, op', batch, ks, hop, hfinal, hdata, hcovers, hcarries⟩ :=
        GroupBySinkSourceOperator.result_groups (P := P) ord hn hkeys (fun f hf => (haggs f hf).1)
          hcalls hbound
      refine ⟨.groupBy op, .groupBy op', batch, _, ?_, ?_, rfl, ?_, ⟨ks, hcovers, rfl⟩,
        .inl hcarries⟩
      · rw [Breaker.create,
          SinkObject.sinkAll_map .groupBy (GroupBySinkSourceOperator.sink P) fun _ _ _ => rfl]
        exact congrArg (Option.map _) hop
      · exact congrArg (Option.map _) hfinal
      · rw [SinkObject.pending, SinkObject.getData, Option.elim_some, hdata, Option.toList_some]
  | orderBy sortColumns accumTypes limit offset n =>
      obtain ⟨hne, rfl, hkeys, hfits, hcard⟩ := h
      obtain ⟨op, op', batch, L, hop, hfinal, hdata, hperm, hsorted, hbatch⟩ :=
        OrderBySinkSourceOperator.result_window (P := P) (A := A) hne hkeys hfits hcalls hcard
      refine ⟨.orderBy op, .orderBy op', batch, _, ?_, ?_, rfl, ?_, ⟨L, hperm, hsorted, rfl⟩,
        hbatch.imp_right fun h => ⟨rfl, h⟩⟩
      · rw [Breaker.create,
          SinkObject.sinkAll_map .orderBy (OrderBySinkSourceOperator.sink P A) fun _ _ _ => rfl]
        exact congrArg (Option.map _) hop
      · exact congrArg (Option.map _) hfinal
      · rw [SinkObject.pending, SinkObject.getData, Option.elim_some, hdata, Option.toList_some]

/-- **No sum of a breaker overflows** on any sequence of calls with rows that it handles. -/
theorem Breaker.Handles.addsFit {P : Platform} {b : Breaker} {types : List ColumnType}
    {calls : List (RecordBatch × ℕ)} (h : b.Handles types (sunkRows calls)) (ord : IterationOrder)
    (hn : 0 < b.threads) (hcalls : ValidCalls types b.threads calls) : b.AddsFit P ord calls := by
  cases b with
  | aggregation fs n names =>
      exact AggregationSinkSourceOperator.addsFit_of_hasRoom (fun f hf => (h f hf).1) hcalls
        fun f hf => (h f hf).2
  | groupBy idxs keyTypes fs n names =>
      obtain ⟨hkeys, haggs, hbound⟩ := h
      exact GroupBySinkSourceOperator.addsFit_of_hasRoom ord hkeys (fun f hf => (haggs f hf).1) hn
        hcalls hbound fun f hf => (haggs f hf).2
  | orderBy sortColumns accumTypes limit offset n => trivial

end ColumnarEngine
