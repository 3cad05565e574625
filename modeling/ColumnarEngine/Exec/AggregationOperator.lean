import ColumnarEngine.Exec.Aggregates
import ColumnarEngine.Exec.SinkCalls
import ColumnarEngine.Found.Partial
import ColumnarEngine.Found.Transition

/-!
# Aggregation without GROUP BY

`AggregationSinkSourceOperator`: every `Sink` call updates the states of its thread, `Finalize`
merges the threads. After any run the state of a thread stands for the rows sunk on it
(`sinkAll_holds`), and the merged state for all rows (`total_represents`).
-/

namespace ColumnarEngine

open Found

/-- The members of the operator. -/
structure AggregationSinkSourceOperator where
  aggregationFunctions : List GlobalAggregationFunction
  resultBatch : Option RecordBatch
  emitted : Bool

namespace AggregationSinkSourceOperator

variable (P : Platform)

/-- The constructor, with the aggregation functions the plan creates for `num_threads` threads. -/
def create (aggs : List AggregationFunction) (numThreads : ℕ) :
    AggregationSinkSourceOperator where
  aggregationFunctions := aggs.map fun f => GlobalAggregationFunction.create P f numThreads
  resultBatch := none
  emitted := false

/-- `Sink(batch, thread_id)`. -/
def sink (op : AggregationSinkSourceOperator) (batch : RecordBatch) (threadId : ℕ) :
    Option AggregationSinkSourceOperator :=
  (op.aggregationFunctions.mapM fun f : GlobalAggregationFunction =>
      f.update P batch threadId).map fun fs =>
    { op with aggregationFunctions := fs }

/-- `Finalize`: one row. -/
def finalize (op : AggregationSinkSourceOperator) : Option AggregationSinkSourceOperator :=
  (op.aggregationFunctions.mapM fun f : GlobalAggregationFunction =>
      f.finalize P).map fun columns =>
    { op with resultBatch := some ⟨1, none, columns⟩ }

/-- `GetData`: the result once, then nothing. -/
def getData (op : AggregationSinkSourceOperator) :
    Option RecordBatch × AggregationSinkSourceOperator :=
  if op.emitted then (none, op)
  else (op.resultBatch, { op with resultBatch := none, emitted := true })

/-- A sequence of `Sink` calls. -/
def sinkAll (op : AggregationSinkSourceOperator) (calls : List (RecordBatch × ℕ)) :
    Option AggregationSinkSourceOperator :=
  calls.foldlM (fun op call => op.sink P call.1 call.2) op

end AggregationSinkSourceOperator

/-! ## The states stand for the rows -/

namespace GlobalAggregationFunction

variable {P : Platform}

/-- The state of every thread stands for the arguments of the rows sunk on it. -/
def Holds (n : ℕ) (rs : ℕ → Multiset Row) (f : GlobalAggregationFunction) : Prop :=
  f.threadStates.length = n ∧ ∀ t s, f.threadStates[t]? = some s →
    f.kind.Represents s ((rs t).map f.argument)

/-- One `Update` of a state. -/
theorem absorb_represents {f : AggregationFunction} {b : RecordBatch} (hb : b.WellFormed)
    (hf : f.Declared b.types) {s : f.kind.State} {m : Multiset Value} (hs : f.kind.Represents s m) :
    ∃ s', f.kind.absorb P f.columnIndex b s = some s' ∧
      f.kind.Represents s' (m + (b.rows : Multiset Row).map f.argument) := by
  have hinputs := hf.inputs_eq hb
  have hacc : ∀ v ∈ b.rows.map f.argument, f.kind.Accepts v := by
    intro v hv
    obtain ⟨r, hr, rfl⟩ := List.mem_map.mp hv
    exact hf.accepts (hb.rows_typed r hr)
  have hfold := (AggregateKind.summarizes (P := P) hf.exact).foldl_step hs hacc
  obtain ⟨kind, col, t⟩ := f
  rw [Multiset.map_coe]
  cases kind with
  | count out =>
      refine ⟨_, rfl, ?_⟩
      have hs : (s : ℤ) = wrap 8 (m.card : ℤ) := hs
      simp only [AggregateKind.Represents, hs, wrap_wrap_add, Multiset.card_add,
        Multiset.coe_card, List.length_map, hb.length_rows, Nat.cast_add]
  | typed i o op => exact ⟨_, by rw [AggregateKind.absorb, hinputs, Option.map_some], hfold⟩
  | avg i o st => exact ⟨_, by rw [AggregateKind.absorb, hinputs, Option.map_some], hfold⟩
  | distinctCount i o => exact ⟨_, by rw [AggregateKind.absorb, hinputs, Option.map_some], hfold⟩

/-- `Update` replaces the state of its thread. -/
theorem update_eq_some {f : GlobalAggregationFunction} {b : RecordBatch} {t : ℕ}
    {s s' : f.kind.State} (hs : f.threadStates[t]? = some s)
    (h : f.kind.absorb P f.columnIndex b s = some s') :
    f.update P b t = some { f with threadStates := f.threadStates.set t s' } := by
  rw [update, hs, Option.bind_some, h, Option.map_some]

/-- `Update` adds the rows of the batch to its thread and touches no other. -/
theorem update_holds {f : GlobalAggregationFunction} {b : RecordBatch} (hb : b.WellFormed)
    (hf : f.Declared b.types) {n t : ℕ} (ht : t < n) {rs : ℕ → Multiset Row} (h : f.Holds n rs) :
    ∃ f', f.update P b t = some f' ∧ f'.toAggregationFunction = f.toAggregationFunction ∧
      f'.Holds n (Function.update rs t (rs t + b.rows)) := by
  obtain ⟨hlen, hstates⟩ := h
  have hlt : t < f.threadStates.length := hlen ▸ ht
  have hst := List.getElem?_eq_getElem hlt
  obtain ⟨s', hs', hrep⟩ := absorb_represents (P := P) hb hf (hstates t _ hst)
  refine ⟨_, update_eq_some hst hs', rfl, List.length_set.trans hlen, ?_⟩
  refine forall_getElem?_set hstates hlt ?_ ?_
  · rw [Function.update_self, Multiset.map_add]
    exact hrep
  · intro t' s hne hs
    rwa [Function.update_of_ne hne]

/-- The merge over the threads stands for the rows of all threads. -/
theorem total_represents {types : List ColumnType} {n : ℕ} (hn : 0 < n) {rs : ℕ → Multiset Row}
    {f : GlobalAggregationFunction} (hf : f.Declared types) (h : f.Holds n rs) :
    ∃ s, f.total P = some s ∧
      f.kind.Represents s ((∑ t ∈ Finset.range n, rs t).map f.argument) := by
  obtain ⟨hlen, hstates⟩ := h
  have hsum := AggregateKind.summarizes (P := P) hf.exact
  have hall : List.Forall₂ f.kind.Represents f.threadStates
      ((List.range n).map fun t => (rs t).map f.argument) := by
    rw [List.forall₂_iff_get]
    refine ⟨by simp [hlen], ?_⟩
    intro t ht ht'
    simpa using hstates t _ (List.getElem?_eq_getElem ht)
  have htotal : ∀ k, ((List.range k).map fun t => (rs t).map f.argument).sum =
      (∑ t ∈ Finset.range k, rs t).map f.argument := by
    intro k
    induction k with
    | zero => simp
    | succ k ih => simp [List.range_succ, Finset.sum_range_succ, ih]
  rw [← htotal n]
  cases hss : f.threadStates with
  | nil => simp [hss] at hlen; omega
  | cons s ss =>
      rw [hss] at hall
      cases hms : (List.range n).map fun t => (rs t).map f.argument with
      | nil => simp at hms; omega
      | cons m ms =>
          rw [hms] at hall
          obtain ⟨hs, hrest⟩ := List.forall₂_cons.mp hall
          unfold total
          rw [hss]
          dsimp only
          split_ifs with hdistinct
          · exact ⟨_, rfl, by simpa using hsum.foldl_merge hrest hs⟩
          · exact ⟨_, rfl, by simpa using hsum.foldl_merge hall hsum.init⟩

end GlobalAggregationFunction

namespace AggregationSinkSourceOperator

variable {P : Platform} {types : List ColumnType} {aggs : List AggregationFunction} {n : ℕ}

/-- Every function has been declared and its states stand for the rows sunk on each thread. -/
structure Holds (aggs : List AggregationFunction) (n : ℕ) (rs : ℕ → Multiset Row)
    (op : AggregationSinkSourceOperator) : Prop where
  specs : op.aggregationFunctions.map (fun f => f.toAggregationFunction) = aggs
  funcs : ∀ f ∈ op.aggregationFunctions, f.Holds n rs
  silent : op.emitted = false

/-- A fresh operator holds nothing. -/
theorem create_holds (haggs : ∀ f ∈ aggs, f.Declared types) :
    Holds aggs n (fun _ => 0) (create P aggs n) where
  specs := by simp [create, GlobalAggregationFunction.create, Function.comp_def]
  funcs := by
    intro f hf
    obtain ⟨a, ha, rfl⟩ := List.mem_map.mp hf
    refine ⟨by simp [GlobalAggregationFunction.create], ?_⟩
    intro t s hs
    obtain ⟨-, rfl⟩ := List.mem_replicate.mp (List.mem_of_getElem? hs)
    exact (AggregateKind.summarizes (haggs a ha).exact).init
  silent := rfl

/-- **A `Sink` call** adds the rows of the batch to its thread and touches no other. -/
theorem sink_holds (haggs : ∀ f ∈ aggs, f.Declared types) {rs : ℕ → Multiset Row}
    {op : AggregationSinkSourceOperator} (h : Holds aggs n rs op) {b : RecordBatch}
    (hb : b.WellFormed) (hbt : b.types = types) {t : ℕ} (ht : t < n) :
    ∃ op', op.sink P b t = some op' ∧ Holds aggs n (Function.update rs t (rs t + b.rows)) op' := by
  obtain ⟨fs, hfs, hspecs, hfuncs⟩ := exists_mapM_keep
    (f := fun f : GlobalAggregationFunction => f.update P b t)
    fun f hf => GlobalAggregationFunction.update_holds (P := P) hb
      (hbt ▸ haggs _ (h.specs ▸ List.mem_map_of_mem hf)) ht (h.funcs f hf)
  exact ⟨{ op with aggregationFunctions := fs }, by rw [sink, hfs, Option.map_some],
    hspecs.trans h.specs, hfuncs, h.silent⟩

/-- **A run of `Sink` calls**: the states of every thread stand for the rows sunk on it. -/
theorem sinkAll_holds (haggs : ∀ f ∈ aggs, f.Declared types) {calls : List (RecordBatch × ℕ)}
    (hcalls : ValidCalls types n calls) :
    ∃ op, (create P aggs n).sinkAll P calls = some op ∧ Holds aggs n (threadRows calls) op := by
  refine exists_foldlM (l := calls) (s := create P aggs n) (f := fun op c => op.sink P c.1 c.2)
    (I := fun done op => Holds aggs n (threadRows done) op) (create_holds haggs) ?_
  intro done c rest hl op h
  obtain ⟨hb, hbt, ht⟩ := hcalls c (by simp [hl])
  obtain ⟨op', hop', h'⟩ := sink_holds (P := P) haggs h hb hbt ht
  exact ⟨op', hop', by rw [threadRows_append]; exact h'⟩

end AggregationSinkSourceOperator

end ColumnarEngine
