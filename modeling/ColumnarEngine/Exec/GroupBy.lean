import ColumnarEngine.Exec.AggregationFunctions
import ColumnarEngine.Exec.Table

/-!
# GROUP BY

`GroupBySinkSourceOperator`. Each thread numbers the keys it sees in a hash table, keeps the key
columns of its groups in builders and the aggregate states in the aggregation functions; `Finalize`
merges the groups of the other threads into those of thread 0.

The hash table is an association list in insertion order; the order in which `Finalize` iterates
over one is arbitrary (`IterationOrder`). Group ids are `uint32_t`.
-/

namespace ColumnarEngine

/-- `absl::flat_hash_map<std::string, uint32_t>`. -/
abbrev HashTable := List (Bytes × ℕ)

/-- The order in which a range-based loop visits a hash table: every entry once. -/
structure IterationOrder where
  order : HashTable → HashTable
  perm : ∀ table, (order table).Perm table

/-- `GroupByThreadState`. -/
structure GroupByThreadState where
  hashTable : HashTable := []
  keyBuilders : List ColumnBuilder := []
  numGroups : ℕ := 0

/-- The members of the operator. -/
structure GroupBySinkSourceOperator where
  groupByColIndices : List ℕ
  keyTypes : List ColumnType
  aggFuncs : List GroupedAggregationFunction
  threadStates : List GroupByThreadState
  resultBatch : Option RecordBatch
  emitted : Bool

namespace GroupBySinkSourceOperator

variable (P : Platform)

/-- The constructor, with the aggregation functions the plan creates for `num_threads` threads. -/
def create (groupByColIndices : List ℕ) (keyTypes : List ColumnType)
    (aggFuncs : List AggregationFunction) (numThreads : ℕ) : GroupBySinkSourceOperator where
  groupByColIndices := groupByColIndices
  keyTypes := keyTypes
  aggFuncs := aggFuncs.map fun f => GroupedAggregationFunction.create f numThreads
  threadStates := List.replicate numThreads {}
  resultBatch := none
  emitted := false

/-- `if (key_builders.empty())` make one builder for each key type. -/
def ensureBuilders (op : GroupBySinkSourceOperator) (builders : List ColumnBuilder) :
    List ColumnBuilder :=
  if builders.isEmpty then op.keyTypes.map makeColumnBuilder else builders

/-- The composite keys of the rows of a batch: `HashKeys` for each group-by column. -/
def compositeKeys (op : GroupBySinkSourceOperator) (batch : RecordBatch) : Option (List Bytes) :=
  op.groupByColIndices.foldlM
    (fun keys col => (batch.columns[col]?).bind fun c => hashKeys c keys batch.selectionVector)
    (List.replicate batch.numRows [])

/-- What the loop over the composite keys writes: the hash table and the number of groups of the
thread, the group ids of the rows and the physical indices of the rows that opened a group. -/
structure Assignment where
  hashTable : HashTable
  numGroups : ℕ
  groupIds : List ℕ
  newGroupIndices : List ℕ

/-- `is_filtered ? (*sel_vec)[i] : i`. -/
def actualIdx (batch : RecordBatch) (i : ℕ) : Option ℕ :=
  match batch.selectionVector with
  | none => some i
  | some sel => sel[i]?

/-- One round of the loop over the composite keys. -/
def assignGroup (batch : RecordBatch) (a : Assignment) (row : Bytes × ℕ) : Option Assignment :=
  match a.hashTable.lookup row.1 with
  | some gid => some { a with groupIds := a.groupIds ++ [gid] }
  | none =>
      (actualIdx batch row.2).map fun idx =>
        { hashTable := a.hashTable ++ [(row.1, toUInt32 a.numGroups)]
          numGroups := a.numGroups + 1
          groupIds := a.groupIds ++ [toUInt32 a.numGroups]
          newGroupIndices := a.newGroupIndices ++ [idx] }

/-- `CopySelection` of the group-by columns at the rows that opened a group. -/
def copyNewKeys (op : GroupBySinkSourceOperator) (batch : RecordBatch)
    (builders : List ColumnBuilder) (newGroupIndices : List ℕ) : Option (List ColumnBuilder) :=
  if newGroupIndices.isEmpty then some builders
  else (gather batch.columns op.groupByColIndices).bind fun srcs =>
    copyColumns op.groupByColIndices.length builders srcs (some newGroupIndices)

/-- `Sink(batch, thread_id)`. -/
def sink (op : GroupBySinkSourceOperator) (batch : RecordBatch) (threadId : ℕ) :
    Option GroupBySinkSourceOperator := do
  let loc ← op.threadStates[threadId]?
  let builders := op.ensureBuilders loc.keyBuilders
  let keys ← op.compositeKeys batch
  let a ← keys.zipIdx.foldlM (assignGroup batch) ⟨loc.hashTable, loc.numGroups, [], []⟩
  let builders' ← op.copyNewKeys batch builders a.newGroupIndices
  let aggFuncs' ← op.aggFuncs.mapM fun f =>
    (f.resize P a.numGroups threadId).bind fun f => f.update P batch a.groupIds threadId
  return { op with
    aggFuncs := aggFuncs'
    threadStates := op.threadStates.set threadId ⟨a.hashTable, builders', a.numGroups⟩ }

/-- The state `Finalize` merges into: the groups of thread 0 and all aggregation functions. -/
structure Merge where
  glob : GroupByThreadState
  aggFuncs : List GroupedAggregationFunction

/-- One round of the loop over the hash table of thread `t`. -/
def mergeEntry (t : ℕ) (localKeyCols : List Column) (m : Merge) (entry : Bytes × ℕ) :
    Option Merge :=
  match m.glob.hashTable.lookup entry.1 with
  | some target => do
      let aggFuncs ← m.aggFuncs.mapM fun f => f.combineState P t entry.2 target
      return { m with aggFuncs := aggFuncs }
  | none => do
      let target := toUInt32 m.glob.numGroups
      let builders ← copyColumns m.glob.keyBuilders.length m.glob.keyBuilders localKeyCols
        (some [entry.2])
      let aggFuncs ← m.aggFuncs.mapM fun f =>
        (f.resize P (m.glob.numGroups + 1) 0).bind fun f => f.combineState P t entry.2 target
      return ⟨⟨m.glob.hashTable ++ [(entry.1, target)], builders, m.glob.numGroups + 1⟩, aggFuncs⟩

/-- One round of the loop over the threads `1 ..`. -/
def mergeThread (ord : IterationOrder) (m : Merge) (thread : GroupByThreadState × ℕ) :
    Option Merge :=
  if thread.1.numGroups = 0 then some m
  else (ord.order thread.1.hashTable).foldlM
    (mergeEntry P thread.2 (thread.1.keyBuilders.map ColumnBuilder.finish)) m

/-- `Finalize`. -/
def finalize (ord : IterationOrder) (op : GroupBySinkSourceOperator) :
    Option GroupBySinkSourceOperator := do
  let glob ← op.threadStates[0]?
  let m ← (op.threadStates.zipIdx.drop 1).foldlM (mergeThread P ord)
    ⟨{ glob with keyBuilders := op.ensureBuilders glob.keyBuilders }, op.aggFuncs⟩
  let aggColumns ← m.aggFuncs.mapM fun f => f.finalize P
  return { op with
    aggFuncs := m.aggFuncs
    resultBatch := some
      { numRows := m.glob.numGroups
        selectionVector := none
        columns := m.glob.keyBuilders.map ColumnBuilder.finish ++ aggColumns } }

/-- `GetData`: the result once, then nothing. -/
def getData (op : GroupBySinkSourceOperator) : Option RecordBatch × GroupBySinkSourceOperator :=
  if op.emitted then (none, op)
  else (op.resultBatch, { op with resultBatch := none, emitted := true })

/-- A sequence of `Sink` calls. -/
def sinkAll (op : GroupBySinkSourceOperator) (calls : List (RecordBatch × ℕ)) :
    Option GroupBySinkSourceOperator :=
  calls.foldlM (fun op call => op.sink P call.1 call.2) op

end GroupBySinkSourceOperator

end ColumnarEngine
