import ColumnarEngine.Exec.Transforms
import ColumnarEngine.Found.Transition

/-!
# Pipeline execution

`Pipeline::Execute` of `Pipeline.h` on the `ThreadPool` of `ThreadPool.h`, as a machine. The main
thread enqueues `num_threads` tasks, waits for the completion counter and calls `Finalize`; the pool
threads pop tasks from the back of a shared vector and run the worker loop. One step is one access
to shared state: a locked queue operation, one `GetData`, one `Execute` (for a `Limit`: the
`fetch_add`, then the `store` of its flag), one read of `IsPipelineDone`, one `Sink`, the locked
increment of the counter.

A source and a sink are tables of their virtual functions; a source also says which batches it has
still to emit. The machine is stuck where the code's behaviour is undefined or an exception ends the
process. `started`, `taken` and `sunk` record the tasks popped, the batches taken from the source
and the batches sunk.
-/

namespace ColumnarEngine

open Found

/-- `SourceOperator`: `GetData`, and the batches it will return. -/
structure SourceOperator (σ : Type*) where
  getData : σ → Option (Option RecordBatch × σ)
  pending : σ → List RecordBatch
  pending_eq : ∀ {s r s'}, getData s = some (r, s') → pending s = r.toList ++ pending s'
  exhausted : ∀ {s s'}, getData s = some (none, s') → pending s = []

/-- `SinkOperator`: `Sink(batch, thread_id)` and `Finalize()`. -/
structure SinkOperator (τ : Type*) where
  sink : τ → RecordBatch → ℕ → Option τ
  finalize : τ → Option τ

/-- `Pipeline`, with the `num_threads` it is executed with. -/
structure Pipeline (σ τ : Type*) where
  source : SourceOperator σ
  transforms : List TransformOperator
  sink : SinkOperator τ
  numThreads : ℕ

/-- The shared fields of a `LimitTransformOperator`: `cur_rows_` and `done_`. -/
structure LimitState where
  curRows : ℕ
  isDone : Bool
  deriving DecidableEq, Repr

/-- Where a task stands in the worker loop. `i` is the position in `transforms`. -/
inductive TaskPoint
  | getData
  | execute (i : ℕ) (batch : RecordBatch)
  | storeDone (i : ℕ) (result : Option RecordBatch)
  | isPipelineDone (i : ℕ) (batch : RecordBatch)
  | sink (batch : RecordBatch) (stop : Bool)
  | countFinished

/-- A thread of the pool waits for a task or runs the task of a `thread_id`. -/
inductive PoolThread
  | waiting
  | running (threadId : ℕ) (point : TaskPoint)

/-- What the tasks of one `Execute` share. `limits` has the state of the transform of each
position; only that of a `Limit` is ever used. -/
structure Shared (σ τ : Type*) where
  source : σ
  limits : ℕ → LimitState
  sink : τ
  numTasksFinished : ℕ
  taken : List (RecordBatch × ℕ)
  sunk : List (RecordBatch × ℕ)

/-- The state of one `Execute` on a pool. -/
structure ExecState (σ τ : Type*) where
  shared : Shared σ τ
  enqueued : ℕ
  tasks : List ℕ
  threads : List PoolThread
  finalizing : Bool
  finalized : Bool
  started : List ℕ

/-- Who takes the next step: the main thread at one of its three points, or a pool thread. -/
inductive Action
  | enqueue
  | wakeUp
  | finalize
  | thread (w : ℕ)
  deriving DecidableEq, Repr

namespace Pipeline

variable {σ τ : Type*} (P : Platform) (p : Pipeline σ τ)

/-- After the transform loop. -/
def afterTransforms (batch : RecordBatch) (stop : Bool) : TaskPoint :=
  if 0 < batch.numRows then .sink batch stop else if stop then .countFinished else .getData

/-- At the head of the transform loop. -/
def enterTransform (i : ℕ) (batch : RecordBatch) : TaskPoint :=
  if i < p.transforms.length then .execute i batch else afterTransforms batch false

/-- After `Execute` of a transform: `if (!batch || batch->num_rows == 0)`. -/
def afterExecute (i : ℕ) : Option RecordBatch → TaskPoint
  | none => .getData
  | some batch => if batch.numRows = 0 then .getData else .isPipelineDone i batch

/-- `IsPipelineDone()` of the transform at a position. -/
def isPipelineDone (s : Shared σ τ) (i : ℕ) : Bool :=
  match p.transforms[i]? with
  | some (.limit _) => (s.limits i).isDone
  | _ => false

/-- `Execute` of the transform at a position. -/
def executeTransform (s : Shared σ τ) (i : ℕ) (batch : RecordBatch) :
    Option (Shared σ τ × TaskPoint) :=
  (p.transforms[i]?).bind fun t => match t with
    | .limit n =>
        let old := s.limits i
        let added := { old with curRows := (old.curRows + batch.numRows) % 2 ^ 64 }
        (limitCut n old.curRows batch).map fun (result, isDone) =>
          ({ s with limits := Function.update s.limits i added },
            if isDone then .storeDone i result else afterExecute i result)
    | t => (t.execute P batch).map fun result => (s, afterExecute i result)

/-- One step of the task of `threadId`; the task returns at no point. -/
def taskStep (s : Shared σ τ) (threadId : ℕ) :
    TaskPoint → Option (Shared σ τ × Option TaskPoint)
  | .getData => (p.source.getData s.source).map fun (result, source) =>
      match result with
      | none => ({ s with source := source }, some .countFinished)
      | some batch =>
          ({ s with source := source, taken := s.taken ++ [(batch, threadId)] },
            some (p.enterTransform 0 batch))
  | .execute i batch => (p.executeTransform P s i batch).map fun (s', point) => (s', some point)
  | .storeDone i result =>
      some ({ s with limits := Function.update s.limits i { s.limits i with isDone := true } },
        some (afterExecute i result))
  | .isPipelineDone i batch =>
      some (s, some (if p.isPipelineDone s i then afterTransforms batch true
        else p.enterTransform (i + 1) batch))
  | .sink batch stop => (p.sink.sink s.sink batch threadId).map fun sink =>
      ({ s with sink := sink, sunk := s.sunk ++ [(batch, threadId)] },
        some (if stop then .countFinished else .getData))
  | .countFinished => some ({ s with numTasksFinished := s.numTasksFinished + 1 }, none)

/-- One step of a pool thread: a waiting one takes the last task. -/
def threadStep (s : ExecState σ τ) (w : ℕ) : Option (ExecState σ τ) :=
  (s.threads[w]?).bind fun thread => match thread with
    | .waiting => (s.tasks.getLast?).map fun threadId =>
        { s with
          tasks := s.tasks.dropLast
          threads := s.threads.set w (.running threadId .getData)
          started := s.started ++ [threadId] }
    | .running threadId point => (p.taskStep P s.shared threadId point).map fun (shared, next) =>
        { s with
          shared := shared
          threads := s.threads.set w (next.elim .waiting (.running threadId)) }

/-- One step of `Execute`. -/
def step (s : ExecState σ τ) : Action → Option (ExecState σ τ)
  | .enqueue =>
      if s.enqueued < p.numThreads then
        some { s with enqueued := s.enqueued + 1, tasks := s.tasks ++ [s.enqueued] }
      else none
  | .wakeUp =>
      if s.enqueued = p.numThreads ∧ s.shared.numTasksFinished = p.numThreads ∧
          s.finalizing = false then
        some { s with finalizing := true }
      else none
  | .finalize =>
      if s.finalizing = true ∧ s.finalized = false then
        (p.sink.finalize s.shared.sink).map fun sink =>
          { s with shared := { s.shared with sink := sink }, finalized := true }
      else none
  | .thread w => p.threadStep P s w

/-- The state in which `Execute` starts, on a pool of waiting threads. -/
def init (source : σ) (sink : τ) (poolSize : ℕ) : ExecState σ τ where
  shared :=
    { source := source, limits := fun _ => ⟨0, false⟩, sink := sink, numTasksFinished := 0,
      taken := [], sunk := [] }
  enqueued := 0
  tasks := []
  threads := List.replicate poolSize .waiting
  finalizing := false
  finalized := false
  started := []

/-! ## What a step can do -/

/-- The steps of a task. -/
inductive TaskStep (s : Shared σ τ) (threadId : ℕ) :
    TaskPoint → Shared σ τ → Option TaskPoint → Prop
  | drained {source : σ} (h : p.source.getData s.source = some (none, source)) :
      TaskStep s threadId .getData { s with source := source } (some .countFinished)
  | took {source : σ} {batch : RecordBatch}
      (h : p.source.getData s.source = some (some batch, source)) :
      TaskStep s threadId .getData
        { s with source := source, taken := s.taken ++ [(batch, threadId)] }
        (some (p.enterTransform 0 batch))
  | executed {i : ℕ} {batch : RecordBatch} {t : TransformOperator} {result : Option RecordBatch}
      {limits : ℕ → LimitState} (ht : p.transforms[i]? = some t)
      (hresult : t.Returns P batch result) :
      TaskStep s threadId (.execute i batch) { s with limits := limits }
        (some (afterExecute i result))
  | reached {i n : ℕ} {batch : RecordBatch} {result : Option RecordBatch}
      {limits : ℕ → LimitState} (ht : p.transforms[i]? = some (.limit n))
      (hresult : (TransformOperator.limit n).Returns P batch result) :
      TaskStep s threadId (.execute i batch) { s with limits := limits }
        (some (.storeDone i result))
  | storedDone {i : ℕ} {result : Option RecordBatch} {limits : ℕ → LimitState} :
      TaskStep s threadId (.storeDone i result) { s with limits := limits }
        (some (afterExecute i result))
  | stopped {i : ℕ} {batch : RecordBatch} (h : p.isPipelineDone s i = true) :
      TaskStep s threadId (.isPipelineDone i batch) s (some (afterTransforms batch true))
  | continued {i : ℕ} {batch : RecordBatch} (h : p.isPipelineDone s i = false) :
      TaskStep s threadId (.isPipelineDone i batch) s (some (p.enterTransform (i + 1) batch))
  | sank {batch : RecordBatch} {stop : Bool} {sink : τ}
      (h : p.sink.sink s.sink batch threadId = some sink) :
      TaskStep s threadId (.sink batch stop)
        { s with sink := sink, sunk := s.sunk ++ [(batch, threadId)] }
        (some (if stop then .countFinished else .getData))
  | counted :
      TaskStep s threadId .countFinished { s with numTasksFinished := s.numTasksFinished + 1 } none

variable {P p}

/-- Every step of a task is one of these. -/
theorem taskStep_cases {s s' : Shared σ τ} {threadId : ℕ} {point : TaskPoint}
    {next : Option TaskPoint} (h : p.taskStep P s threadId point = some (s', next)) :
    p.TaskStep P s threadId point s' next := by
  cases point with
  | getData =>
      obtain ⟨⟨result, source⟩, hget, h⟩ := Option.map_eq_some_iff.mp h
      cases result with
      | none =>
          obtain ⟨rfl, rfl⟩ := Prod.mk.inj h
          exact .drained hget
      | some batch =>
          obtain ⟨rfl, rfl⟩ := Prod.mk.inj h
          exact .took hget
  | execute i batch =>
      obtain ⟨⟨s₁, point⟩, hexec, h⟩ := Option.map_eq_some_iff.mp h
      obtain ⟨rfl, rfl⟩ := Prod.mk.inj h
      obtain ⟨t, ht, hexec⟩ := Option.bind_eq_some_iff.mp hexec
      cases t with
      | limit n =>
          obtain ⟨⟨result, isDone⟩, hcut, h⟩ := Option.map_eq_some_iff.mp hexec
          obtain ⟨rfl, rfl⟩ := Prod.mk.inj h
          cases isDone with
          | false => exact .executed ht ⟨_, _, hcut⟩
          | true => exact .reached ht ⟨_, _, hcut⟩
      | filter _ | scalar _ | drop _ | reorder _ =>
          obtain ⟨result, hresult, h⟩ := Option.map_eq_some_iff.mp hexec
          obtain ⟨rfl, rfl⟩ := Prod.mk.inj h
          exact @TaskStep.executed _ _ P p s threadId i batch _ result s.limits ht hresult
  | storeDone i result =>
      obtain ⟨rfl, rfl⟩ := Prod.mk.inj (Option.some.inj h)
      exact .storedDone
  | isPipelineDone i batch =>
      obtain ⟨rfl, rfl⟩ := Prod.mk.inj (Option.some.inj h)
      cases hdone : p.isPipelineDone s i with
      | true => exact .stopped hdone
      | false => exact .continued hdone
  | sink batch stop =>
      obtain ⟨sink, hsink, h⟩ := Option.map_eq_some_iff.mp h
      obtain ⟨rfl, rfl⟩ := Prod.mk.inj h
      exact .sank hsink
  | countFinished =>
      obtain ⟨rfl, rfl⟩ := Prod.mk.inj (Option.some.inj h)
      exact .counted

/-- The steps of `Execute`. -/
inductive ExecStep (P : Platform) (p : Pipeline σ τ) (s : ExecState σ τ) :
    Action → ExecState σ τ → Prop
  | enqueue (h : s.enqueued < p.numThreads) :
      ExecStep P p s .enqueue
        { s with enqueued := s.enqueued + 1, tasks := s.tasks ++ [s.enqueued] }
  | wakeUp (henq : s.enqueued = p.numThreads)
      (hfinished : s.shared.numTasksFinished = p.numThreads) (hmain : s.finalizing = false) :
      ExecStep P p s .wakeUp { s with finalizing := true }
  | finalize {sink : τ} (hmain : s.finalizing = true) (honce : s.finalized = false)
      (h : p.sink.finalize s.shared.sink = some sink) :
      ExecStep P p s .finalize
        { s with shared := { s.shared with sink := sink }, finalized := true }
  | start {w threadId : ℕ} {tasks : List ℕ} (hw : s.threads[w]? = some .waiting)
      (htasks : s.tasks = tasks ++ [threadId]) :
      ExecStep P p s (.thread w)
        { s with
          tasks := tasks
          threads := s.threads.set w (.running threadId .getData)
          started := s.started ++ [threadId] }
  | task {w threadId : ℕ} {point : TaskPoint} {shared : Shared σ τ} {next : Option TaskPoint}
      (hw : s.threads[w]? = some (.running threadId point))
      (h : p.TaskStep P s.shared threadId point shared next) :
      ExecStep P p s (.thread w)
        { s with
          shared := shared
          threads := s.threads.set w (next.elim .waiting (.running threadId)) }

/-- **Every step of `Execute`** is one of these. -/
theorem step_cases {s s' : ExecState σ τ} {a : Action} (h : p.step P s a = some s') :
    ExecStep P p s a s' := by
  cases a with
  | enqueue =>
      simp only [step] at h
      split_ifs at h with hlt
      obtain rfl := Option.some.inj h
      exact .enqueue hlt
  | wakeUp =>
      simp only [step] at h
      split_ifs at h with hwait
      obtain rfl := Option.some.inj h
      exact .wakeUp hwait.1 hwait.2.1 hwait.2.2
  | finalize =>
      simp only [step] at h
      split_ifs at h with hmain
      obtain ⟨sink, hsink, rfl⟩ := Option.map_eq_some_iff.mp h
      exact .finalize hmain.1 hmain.2 hsink
  | thread w =>
      obtain ⟨thread, hw, h⟩ := Option.bind_eq_some_iff.mp h
      cases thread with
      | waiting =>
          obtain ⟨threadId, hlast, rfl⟩ := Option.map_eq_some_iff.mp h
          obtain ⟨tasks, htasks⟩ := List.getLast?_eq_some_iff.mp hlast
          have hdrop : s.tasks.dropLast = tasks := by rw [htasks, List.dropLast_concat]
          rw [hdrop]
          exact .start hw htasks
      | running threadId point =>
          obtain ⟨⟨shared, next⟩, htask, rfl⟩ := Option.map_eq_some_iff.mp h
          exact .task hw (taskStep_cases htask)

/-- The tasks that run after a step of a thread: those of the other threads, and its own if it goes
on. -/
theorem running_of_mem_set {threads : List PoolThread} {w threadId t : ℕ}
    {next : Option TaskPoint} {point : TaskPoint}
    (h : .running t point ∈ threads.set w (next.elim .waiting (.running threadId))) :
    .running t point ∈ threads ∨ t = threadId ∧ next = some point := by
  apply (List.mem_or_eq_of_mem_set h).imp_right
  intro heq
  cases next with
  | none => simp at heq
  | some point' =>
      obtain ⟨rfl, rfl⟩ := PoolThread.running.inj heq
      exact ⟨rfl, rfl⟩

/-- The tasks that run after a thread has started one. -/
theorem running_of_mem_start {threads : List PoolThread} {w threadId t : ℕ} {point : TaskPoint}
    (h : .running t point ∈ threads.set w (.running threadId .getData)) :
    .running t point ∈ threads ∨ t = threadId ∧ point = .getData :=
  (@running_of_mem_set threads w threadId t (some .getData) point h).imp_right fun h =>
    ⟨h.1, (Option.some.inj h.2).symm⟩

end Pipeline

end ColumnarEngine
