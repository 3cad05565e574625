import ColumnarEngine.Exec.Batch
import ColumnarEngine.Found.Grouping

/-!
# Aggregation functions

The class templates of `expressions/AggregationFunctions.h`. Each template exists once for a global
and once for a grouped aggregation with the same element-wise code, so the template and its
parameters are an `AggregateKind`, its element-wise code an accumulator, and the two classes
`GlobalAggregationFunction` and `GroupedAggregationFunction` arrange the states by thread, and by
thread and group.
-/

namespace ColumnarEngine

open Found

/-- `SumOperation`, `MaxOperation`, `MinOperation`. -/
inductive Operation
  | sum | max | min
  deriving DecidableEq, Repr

/-- `Operation::Apply(result, value)` for a `result` of type `output` and a `value` of type
`input`. -/
def Operation.apply (P : Platform) (input output : ColumnType) (op : Operation)
    (result value : Value) : Value :=
  match op with
  | .sum => Value.plus P output result (Value.store P input output value)
  | .max => if Value.less P output result value then Value.store P input output value else result
  | .min => if Value.less P output value result then Value.store P input output value else result

/-- A class template with its arguments. -/
inductive AggregateKind
  /-- `Typed…AggregationFunction<InputColumn, OutputColumn, Operation>`. -/
  | typed (input output : ColumnType) (op : Operation)
  /-- `Count…AggregationFunction<OutputColumn>`. -/
  | count (output : ColumnType)
  /-- `Avg…AggregationFunction<InputColumn, OutputColumn, StateColumn>`. -/
  | avg (input output state : ColumnType)
  /-- `DistinctCount…AggregationFunction<InputColumn, OutputColumn>`. -/
  | distinctCount (input output : ColumnType)
  deriving DecidableEq, Repr

/-- The state of a typed aggregation. -/
structure TypedState where
  value : Value
  hasData : Bool
  deriving DecidableEq, Repr

/-- The state of an average. -/
structure AvgState where
  sum : Value
  count : ℤ
  deriving DecidableEq, Repr

/-- `absl::flat_hash_set::insert`, with the `==` of the element type. -/
def insertDistinct (P : Platform) (t : ColumnType) (set : List Value) (v : Value) : List Value :=
  if set.any fun u => Value.equal P t u v then set else set ++ [v]

namespace AggregateKind

/-- What the template keeps for one thread, or for one group of one thread. -/
abbrev State : AggregateKind → Type
  | typed _ _ _ => TypedState
  | count _ => ℤ
  | avg _ _ _ => AvgState
  | distinctCount _ _ => List Value

/-- The class the result builder is cast to. -/
def output : AggregateKind → ColumnType
  | typed _ out _ => out
  | count out => out
  | avg _ out _ => out
  | distinctCount _ out => out

/-- The class the input column is cast to; `COUNT` reads no column. -/
def input : AggregateKind → Option ColumnType
  | typed t _ _ => some t
  | count _ => none
  | avg t _ _ => some t
  | distinctCount t _ => some t

/-- The element-wise code: the value-initialised state, the body of `Update`, and the merge of
`WriteResult` (global) and `CombineState` (grouped). -/
def accumulator (P : Platform) : (k : AggregateKind) → Accumulator Value k.State
  | typed input output op =>
      { init := ⟨Value.zero output, false⟩
        step := fun s v =>
          if s.hasData then { s with value := op.apply P input output s.value v }
          else ⟨Value.store P input output v, true⟩
        merge := fun s s' =>
          if s'.hasData then
            if s.hasData then { s with value := op.apply P output output s.value s'.value } else s'
          else s }
  | count _ =>
      { init := (0 : ℤ)
        step := fun s _ => wrap 8 (s + 1)
        merge := fun s s' => wrap 8 (s + s') }
  | avg input _ state =>
      { init := ⟨Value.zero state, 0⟩
        step := fun s v =>
          ⟨Value.plus P state s.sum (Value.store P input state v), wrap 8 (s.count + 1)⟩
        merge := fun s s' => ⟨Value.plus P state s.sum s'.sum, wrap 8 (s.count + s'.count)⟩ }
  | distinctCount input _ =>
      { init := []
        step := insertDistinct P input
        merge := fun s s' => s'.foldl (insertDistinct P input) s }

/-- The value passed to `AddValue` for a final state. -/
def result (P : Platform) : (k : AggregateKind) → k.State → Value
  | typed _ _ _, s => s.value
  | count _, s => .int s
  | avg _ output state, s =>
      if 0 < s.count then .int (P.computeAvg state s.sum.toInt s.count) else Value.zero output
  | distinctCount _ _, s => .int (List.length s)

/-- The elements `Update` visits, in order: those of the input column, or one for each row. -/
def inputs (k : AggregateKind) (columnIndex : ℕ) (batch : RecordBatch) : Option (List Value) :=
  match k.input with
  | none => some (List.replicate batch.numRows default)
  | some t => (batch.iterateColumnData t columnIndex).map fun vs => vs.map Prod.fst

/-- `Update` of the global class on one thread's state; `COUNT` adds `num_rows` at once. -/
def absorb (P : Platform) (columnIndex : ℕ) (batch : RecordBatch) :
    (k : AggregateKind) → k.State → Option k.State
  | count _, s => some (wrap 8 ((s : ℤ) + batch.numRows))
  | typed i o op, s =>
      ((typed i o op).inputs columnIndex batch).map fun vs =>
        vs.foldl ((typed i o op).accumulator P).step s
  | avg i o st, s =>
      ((avg i o st).inputs columnIndex batch).map fun vs =>
        vs.foldl ((avg i o st).accumulator P).step s
  | distinctCount i o, s =>
      ((distinctCount i o).inputs columnIndex batch).map fun vs =>
        vs.foldl ((distinctCount i o).accumulator P).step s

end AggregateKind

/-- What every aggregation function is created with. -/
structure AggregationFunction where
  kind : AggregateKind
  columnIndex : ℕ
  columnType : ColumnType
  deriving DecidableEq, Repr

/-- `AggregationFunction::Finalize`: the results written to a builder of the declared type. The
builder is cast to the output class. -/
def AggregationFunction.finalize (P : Platform) (f : AggregationFunction)
    (states : List f.kind.State) : Option Column :=
  if f.columnType = f.kind.output then
    some ((makeColumnBuilder f.columnType).addValues (states.map (f.kind.result P))).finish
  else none

/-! ## Global aggregation -/

/-- `GlobalAggregationFunction`: one state for each thread. -/
structure GlobalAggregationFunction extends AggregationFunction where
  threadStates : List kind.State

namespace GlobalAggregationFunction

variable (P : Platform)

/-- The constructor: `thread_states_(num_threads)`. -/
def create (f : AggregationFunction) (numThreads : ℕ) : GlobalAggregationFunction where
  toAggregationFunction := f
  threadStates := List.replicate numThreads (f.kind.accumulator P).init

/-- `Update(batch, thread_id)`. -/
def update (f : GlobalAggregationFunction) (batch : RecordBatch) (threadId : ℕ) :
    Option GlobalAggregationFunction :=
  (f.threadStates[threadId]?).bind fun s =>
    (f.kind.absorb P f.columnIndex batch s).map fun s' =>
      { f with threadStates := f.threadStates.set threadId s' }

/-- The merge over the threads in `WriteResult`. `COUNT(DISTINCT)` merges into the set of thread 0,
the others into a fresh state. -/
def total (f : GlobalAggregationFunction) : Option f.kind.State :=
  match f.threadStates with
  | [] => if f.kind matches .distinctCount _ _ then none else some (f.kind.accumulator P).init
  | s :: ss =>
      if f.kind matches .distinctCount _ _ then some (ss.foldl (f.kind.accumulator P).merge s)
      else some ((s :: ss).foldl (f.kind.accumulator P).merge (f.kind.accumulator P).init)

/-- `Finalize`. -/
def finalize (f : GlobalAggregationFunction) : Option Column :=
  (f.total P).bind fun s => f.toAggregationFunction.finalize P [s]

end GlobalAggregationFunction

/-! ## Grouped aggregation -/

/-- Write to the element at an index. -/
def modifyAt {α : Type*} (l : List α) (i : ℕ) (f : α → α) : Option (List α) :=
  if i < l.length then some (l.modify i f) else none

/-- `GroupedAggregationFunction`: for each thread one state for each of its groups. -/
structure GroupedAggregationFunction extends AggregationFunction where
  threadStates : List (List kind.State)

namespace GroupedAggregationFunction

variable (P : Platform)

/-- The constructor: `thread_states_(num_threads)`. -/
def create (f : AggregationFunction) (numThreads : ℕ) : GroupedAggregationFunction where
  toAggregationFunction := f
  threadStates := List.replicate numThreads []

/-- `Resize(num_groups, thread_id)`: new groups are value-initialised. -/
def resize (f : GroupedAggregationFunction) (numGroups threadId : ℕ) :
    Option GroupedAggregationFunction :=
  (f.threadStates[threadId]?).map fun states =>
    { f with
      threadStates := f.threadStates.set threadId
        (states ++ List.replicate (numGroups - states.length) (f.kind.accumulator P).init) }

/-- The loop of `Update` over elements with their group ids. -/
def updateStates (k : AggregateKind) (states : List k.State) (elements : List (Value × ℕ)) :
    Option (List k.State) :=
  elements.foldlM (fun l e => modifyAt l e.2 fun s => (k.accumulator P).step s e.1) states

/-- `Update(batch, group_ids, thread_id)`. -/
def update (f : GroupedAggregationFunction) (batch : RecordBatch) (groupIds : List ℕ)
    (threadId : ℕ) : Option GroupedAggregationFunction :=
  (f.threadStates[threadId]?).bind fun states =>
    (f.kind.inputs f.columnIndex batch).bind fun vs =>
      if vs.length ≤ groupIds.length then
        (updateStates P f.kind states (vs.zip groupIds)).map fun states' =>
          { f with threadStates := f.threadStates.set threadId states' }
      else none

/-- `CombineState(src_thread, src_gid, global_gid)`: into the states of thread 0. -/
def combineState (f : GroupedAggregationFunction) (srcThread srcGid globalGid : ℕ) :
    Option GroupedAggregationFunction :=
  (f.threadStates[srcThread]?).bind fun src =>
    (src[srcGid]?).bind fun s =>
      (f.threadStates[0]?).bind fun glob =>
        (modifyAt glob globalGid fun g => (f.kind.accumulator P).merge g s).map fun glob' =>
          { f with threadStates := f.threadStates.set 0 glob' }

/-- `Finalize`: one value for each state of thread 0. -/
def finalize (f : GroupedAggregationFunction) : Option Column :=
  (f.threadStates[0]?).bind (f.toAggregationFunction.finalize P)

end GroupedAggregationFunction

end ColumnarEngine
