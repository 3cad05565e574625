import ColumnarEngine.Exec.PipelineProgress

/-!
# The thread pool

`DataFrame::Collect` executes its pipelines one after the other on one `ThreadPool`. Here the pool
and the latch of `Execute` are as `ThreadPool.h` and `Pipeline.h` write them: a mutex is taken and
released, `wait` with a predicate checks it under the mutex and goes to sleep, `notify_one` wakes
one sleeping thread, if any, after the mutex has been released, and threads also wake up without a
notification. At the end the destructor sets `stop_`, wakes everybody and joins the workers.

One step is the acquisition of a mutex, what a thread does while it holds one (with the release), a
notification, or a step of a task as in `Pipeline`. The pipelines are a list; the sink of one, once
finalized, is the source of the next.
-/

namespace ColumnarEngine

open Found

/-- Who holds a mutex. -/
inductive MutexOwner
  | main
  | worker (w : ℕ)
  deriving DecidableEq, Repr

/-- Where a thread of the pool stands: in its loop around `condition_`, or in a task, which ends by
locking `wait_mutex`. -/
inductive WorkerPoint
  | lockQueue
  | checkQueue
  | asleep
  | task (threadId : ℕ) (point : TaskPoint)
  | counting (threadId : ℕ)
  | exited

/-- Where the main thread stands: in `Enqueue` of a task, in the wait of `Execute` or behind it, or
in `~ThreadPool`. -/
inductive MainPoint
  | lockQueue (threadId : ℕ)
  | pushTask (threadId : ℕ)
  | notifyOne (threadId : ℕ)
  | lockWait
  | checkWait
  | asleep
  | finalize
  | executed
  | lockStop
  | setStop
  | notifyAll
  | join (w : ℕ)
  | destroyed
  deriving DecidableEq, Repr

/-- `completed_pipelines`: the sinks before use, the source of the first pipeline, and each later
source, which is the sink of the pipeline before. -/
structure PipelineProgram (σ τ : Type*) where
  pipelines : List (Pipeline σ τ)
  sink : ℕ → τ
  firstSource : σ
  source : ℕ → τ → σ

/-- The pool, the stack variables of `Execute` (`numTasksFinished` is in `shared`) and the number of
the pipeline that is executed. -/
structure PoolState (σ τ : Type*) where
  stage : ℕ
  shared : Shared σ τ
  tasks : List ℕ
  stop : Bool
  queueMutex : Option MutexOwner
  waitMutex : Option MutexOwner
  workers : List WorkerPoint
  main : MainPoint
  started : List ℕ

/-- Who takes the next step; `notifyOne` says whom it wakes. -/
inductive PoolAction
  | main
  | notifyOne (woken : Option ℕ)
  | worker (w : ℕ)
  | spurious (who : MutexOwner)
  deriving DecidableEq, Repr

namespace PoolAction

def isSpurious : PoolAction → Bool
  | .spurious _ => true
  | _ => false

end PoolAction

namespace WorkerPoint

/-- A notification. -/
def wake : WorkerPoint → WorkerPoint
  | .asleep => .lockQueue
  | point => point

def isAsleep : WorkerPoint → Bool
  | .asleep => true
  | _ => false

end WorkerPoint

namespace PipelineProgram

variable {σ τ : Type*} (P : Platform) (prog : PipelineProgram σ τ)

/-- What the tasks of an `Execute` share at its start. -/
def freshShared (source : σ) (sink : τ) : Shared σ τ :=
  { source := source, limits := fun _ => ⟨0, false⟩, sink := sink, numTasksFinished := 0,
    taken := [], sunk := [] }

/-- At the head of the loop that enqueues the tasks. -/
def enqueueFrom (p : Pipeline σ τ) (threadId : ℕ) : MainPoint :=
  if threadId < p.numThreads then .lockQueue threadId else .lockWait

/-- The pool has been constructed and the first pipeline is about to be executed. -/
def init (poolSize : ℕ) : PoolState σ τ where
  stage := 0
  shared := freshShared prog.firstSource (prog.sink 0)
  tasks := []
  stop := false
  queueMutex := none
  waitMutex := none
  workers := List.replicate poolSize .lockQueue
  main := (prog.pipelines[0]?).elim .lockStop fun p => enqueueFrom p 0
  started := []

/-- The next pipeline, or the end of `Collect`. -/
def nextStage (s : PoolState σ τ) : PoolState σ τ :=
  match prog.pipelines[s.stage + 1]? with
  | some p =>
      { s with
        stage := s.stage + 1
        shared := freshShared (prog.source s.stage s.shared.sink) (prog.sink (s.stage + 1))
        main := enqueueFrom p 0
        started := [] }
  | none => { s with main := .lockStop }

/-- One step of the main thread in the `Execute` of a pipeline. -/
def executeStep (p : Pipeline σ τ) (s : PoolState σ τ) : Option (PoolState σ τ) :=
  match s.main with
  | .lockQueue i =>
      if s.queueMutex = none then some { s with queueMutex := some .main, main := .pushTask i }
      else none
  | .pushTask i =>
      some { s with tasks := s.tasks ++ [i], queueMutex := none, main := .notifyOne i }
  | .lockWait =>
      if s.waitMutex = none then some { s with waitMutex := some .main, main := .checkWait }
      else none
  | .checkWait =>
      some { s with
        waitMutex := none
        main := if s.shared.numTasksFinished = p.numThreads then .finalize else .asleep }
  | .finalize => (p.sink.finalize s.shared.sink).map fun sink =>
      { s with shared := { s.shared with sink := sink }, main := .executed }
  | _ => none

/-- One step of the main thread outside `Execute`. -/
def collectStep (s : PoolState σ τ) : Option (PoolState σ τ) :=
  match s.main with
  | .executed => some (prog.nextStage s)
  | .lockStop =>
      if s.queueMutex = none then some { s with queueMutex := some .main, main := .setStop }
      else none
  | .setStop => some { s with stop := true, queueMutex := none, main := .notifyAll }
  | .notifyAll => some { s with workers := s.workers.map WorkerPoint.wake, main := .join 0 }
  | .join w =>
      match s.workers[w]? with
      | some .exited => some { s with main := .join (w + 1) }
      | some _ => none
      | none => some { s with main := .destroyed }
  | _ => none

/-- One step of a worker. -/
def workerStep (p : Pipeline σ τ) (s : PoolState σ τ) (w : ℕ) : Option (PoolState σ τ) :=
  (s.workers[w]?).bind fun worker => match worker with
    | .lockQueue =>
        if s.queueMutex = none then
          some { s with
            queueMutex := some (.worker w)
            workers := s.workers.set w .checkQueue }
        else none
    | .checkQueue =>
        match s.tasks.getLast? with
        | some threadId =>
            some { s with
              tasks := s.tasks.dropLast
              queueMutex := none
              workers := s.workers.set w (.task threadId .getData)
              started := s.started ++ [threadId] }
        | none =>
            some { s with
              queueMutex := none
              workers := s.workers.set w (if s.stop then .exited else .asleep) }
    | .task threadId .countFinished =>
        if s.waitMutex = none then
          some { s with
            waitMutex := some (.worker w)
            workers := s.workers.set w (.counting threadId) }
        else none
    | .task threadId point => (p.taskStep P s.shared threadId point).map fun (shared, next) =>
        { s with
          shared := shared
          workers := s.workers.set w (next.elim .lockQueue (.task threadId)) }
    | .counting _ =>
        let numTasksFinished := s.shared.numTasksFinished + 1
        some { s with
          shared := { s.shared with numTasksFinished := numTasksFinished }
          waitMutex := none
          workers := s.workers.set w .lockQueue
          main := if numTasksFinished = p.numThreads ∧ s.main = .asleep then .lockWait
            else s.main }
    | .asleep | .exited => none

/-- `condition_.notify_one()` of the main thread. -/
def notifyStep (p : Pipeline σ τ) (s : PoolState σ τ) (woken : Option ℕ) :
    Option (PoolState σ τ) :=
  match s.main with
  | .notifyOne i =>
      match woken with
      | some w =>
          if (s.workers[w]?).any WorkerPoint.isAsleep then
            some { s with workers := s.workers.set w .lockQueue, main := enqueueFrom p (i + 1) }
          else none
      | none =>
          if s.workers.any WorkerPoint.isAsleep then none
          else some { s with main := enqueueFrom p (i + 1) }
  | _ => none

/-- A wake-up without notification. -/
def spuriousStep (s : PoolState σ τ) : MutexOwner → Option (PoolState σ τ)
  | .main => if s.main = .asleep then some { s with main := .lockWait } else none
  | .worker w =>
      if (s.workers[w]?).any WorkerPoint.isAsleep then
        some { s with workers := s.workers.set w .lockQueue }
      else none

/-- The pipeline that is executed. A list without pipelines has none to execute. -/
def stagePipeline (s : PoolState σ τ) : Option (Pipeline σ τ) := prog.pipelines[s.stage]?

/-- One step of `Collect`. -/
def step (s : PoolState σ τ) : PoolAction → Option (PoolState σ τ)
  | .main =>
      match s.main with
      | .executed | .lockStop | .setStop | .notifyAll | .join _ => prog.collectStep s
      | _ => (prog.stagePipeline s).bind fun p => executeStep p s
  | .notifyOne woken => (prog.stagePipeline s).bind fun p => notifyStep p s woken
  | .worker w => (prog.stagePipeline s).bind fun p => workerStep P p s w
  | .spurious who => spuriousStep s who

/-! ## What a step can do -/

/-- The steps in the `Execute` of a pipeline, those of the pool's destructor and the wake-ups; the
index says which are spurious. -/
inductive PoolStep (p : Pipeline σ τ) (s : PoolState σ τ) : Bool → PoolState σ τ → Prop
  | lockQueue {i : ℕ} (hmain : s.main = .lockQueue i) (hfree : s.queueMutex = none) :
      PoolStep p s false { s with queueMutex := some .main, main := .pushTask i }
  | pushTask {i : ℕ} (hmain : s.main = .pushTask i) :
      PoolStep p s false
        { s with tasks := s.tasks ++ [i], queueMutex := none, main := .notifyOne i }
  | wakeOne {i w : ℕ} (hmain : s.main = .notifyOne i) (hw : s.workers[w]? = some .asleep) :
      PoolStep p s false { s with
        workers := s.workers.set w .lockQueue
        main := enqueueFrom p (i + 1) }
  | wakeNobody {i : ℕ} (hmain : s.main = .notifyOne i) (hw : .asleep ∉ s.workers) :
      PoolStep p s false { s with main := enqueueFrom p (i + 1) }
  | lockWait (hmain : s.main = .lockWait) (hfree : s.waitMutex = none) :
      PoolStep p s false { s with waitMutex := some .main, main := .checkWait }
  | waited (hmain : s.main = .checkWait) (hready : s.shared.numTasksFinished = p.numThreads) :
      PoolStep p s false { s with waitMutex := none, main := .finalize }
  | fellAsleep (hmain : s.main = .checkWait) (hready : s.shared.numTasksFinished ≠ p.numThreads) :
      PoolStep p s false { s with waitMutex := none, main := .asleep }
  | finalize {sink : τ} (hmain : s.main = .finalize)
      (h : p.sink.finalize s.shared.sink = some sink) :
      PoolStep p s false { s with shared := { s.shared with sink := sink }, main := .executed }
  | nextPipeline {q : Pipeline σ τ} (hmain : s.main = .executed)
      (hnext : prog.pipelines[s.stage + 1]? = some q) :
      PoolStep p s false { s with
        stage := s.stage + 1
        shared := freshShared (prog.source s.stage s.shared.sink) (prog.sink (s.stage + 1))
        main := enqueueFrom q 0
        started := [] }
  | lastPipeline (hmain : s.main = .executed) (hnext : prog.pipelines[s.stage + 1]? = none) :
      PoolStep p s false { s with main := .lockStop }
  | lockStop (hmain : s.main = .lockStop) (hfree : s.queueMutex = none) :
      PoolStep p s false { s with queueMutex := some .main, main := .setStop }
  | setStop (hmain : s.main = .setStop) :
      PoolStep p s false { s with stop := true, queueMutex := none, main := .notifyAll }
  | notifyAll (hmain : s.main = .notifyAll) :
      PoolStep p s false { s with workers := s.workers.map WorkerPoint.wake, main := .join 0 }
  | joined {w : ℕ} (hmain : s.main = .join w) (hw : s.workers[w]? = some .exited) :
      PoolStep p s false { s with main := .join (w + 1) }
  | destroyed {w : ℕ} (hmain : s.main = .join w) (hw : s.workers[w]? = none) :
      PoolStep p s false { s with main := .destroyed }
  | workerLockQueue {w : ℕ} (hw : s.workers[w]? = some .lockQueue) (hfree : s.queueMutex = none) :
      PoolStep p s false { s with
        queueMutex := some (.worker w)
        workers := s.workers.set w .checkQueue }
  | popped {w threadId : ℕ} {tasks : List ℕ} (hw : s.workers[w]? = some .checkQueue)
      (htasks : s.tasks = tasks ++ [threadId]) :
      PoolStep p s false { s with
        tasks := tasks
        queueMutex := none
        workers := s.workers.set w (.task threadId .getData)
        started := s.started ++ [threadId] }
  | foundNone {w : ℕ} (hw : s.workers[w]? = some .checkQueue) (htasks : s.tasks = []) :
      PoolStep p s false { s with
        queueMutex := none
        workers := s.workers.set w (if s.stop then .exited else .asleep) }
  | task {w threadId : ℕ} {point point' : TaskPoint} {shared : Shared σ τ}
      (hw : s.workers[w]? = some (.task threadId point))
      (h : p.taskStep P s.shared threadId point = some (shared, some point')) :
      PoolStep p s false { s with
        shared := shared
        workers := s.workers.set w (.task threadId point') }
  | workerLockWait {w threadId : ℕ} (hw : s.workers[w]? = some (.task threadId .countFinished))
      (hfree : s.waitMutex = none) :
      PoolStep p s false { s with
        waitMutex := some (.worker w)
        workers := s.workers.set w (.counting threadId) }
  | counted {w threadId : ℕ} {main : MainPoint} (hw : s.workers[w]? = some (.counting threadId))
      (hmain : main = if s.shared.numTasksFinished + 1 = p.numThreads ∧ s.main = .asleep
        then .lockWait else s.main) :
      PoolStep p s false { s with
        shared := { s.shared with numTasksFinished := s.shared.numTasksFinished + 1 }
        waitMutex := none
        workers := s.workers.set w .lockQueue
        main := main }
  | spuriousMain (hmain : s.main = .asleep) : PoolStep p s true { s with main := .lockWait }
  | spuriousWorker {w : ℕ} (hw : s.workers[w]? = some .asleep) :
      PoolStep p s true { s with workers := s.workers.set w .lockQueue }

variable {P prog}

theorem isAsleep_iff {workers : List WorkerPoint} {w : ℕ} :
    (workers[w]?).any WorkerPoint.isAsleep = true ↔ workers[w]? = some .asleep := by
  cases h : workers[w]? with
  | none => simp
  | some point => cases point <;> simp [WorkerPoint.isAsleep]

theorem any_isAsleep {workers : List WorkerPoint} :
    workers.any WorkerPoint.isAsleep = true ↔ .asleep ∈ workers := by
  rw [List.any_eq_true]
  constructor
  · rintro ⟨point, hmem, hpoint⟩
    cases point <;> simp [WorkerPoint.isAsleep] at hpoint
    exact hmem
  · exact fun hmem => ⟨_, hmem, rfl⟩

/-- A step of a task that is not the last goes on with the task. -/
theorem taskStep_goes_on {p : Pipeline σ τ} {s s' : Shared σ τ} {threadId : ℕ}
    {point : TaskPoint} {next : Option TaskPoint} (hpoint : point ≠ .countFinished)
    (h : p.taskStep P s threadId point = some (s', next)) : ∃ point', next = some point' := by
  cases Pipeline.taskStep_cases h with
  | counted => exact absurd rfl hpoint
  | drained _ | took _ | executed _ _ | reached _ _ | stopped _ | continued _ | sank _ |
    storedDone => exact ⟨_, rfl⟩

theorem executeStep_cases {p : Pipeline σ τ} {s s' : PoolState σ τ}
    (h : executeStep p s = some s') : PoolStep P prog p s false s' := by
  unfold executeStep at h
  split at h
  · next i hmain =>
      split_ifs at h with hfree
      obtain rfl := Option.some.inj h
      exact .lockQueue hmain hfree
  · next i hmain =>
      obtain rfl := Option.some.inj h
      exact .pushTask hmain
  · next hmain =>
      split_ifs at h with hfree
      obtain rfl := Option.some.inj h
      exact .lockWait hmain hfree
  · next hmain =>
      obtain rfl := Option.some.inj h
      split_ifs with hready
      · exact .waited hmain hready
      · exact .fellAsleep hmain hready
  · next hmain =>
      obtain ⟨sink, hsink, rfl⟩ := Option.map_eq_some_iff.mp h
      exact .finalize hmain hsink
  · simp at h

theorem collectStep_cases {p : Pipeline σ τ} {s s' : PoolState σ τ}
    (h : prog.collectStep s = some s') : PoolStep P prog p s false s' := by
  unfold collectStep at h
  split at h
  · next hmain =>
      obtain rfl := Option.some.inj h
      unfold nextStage
      cases hnext : prog.pipelines[s.stage + 1]? with
      | none => exact .lastPipeline hmain hnext
      | some q => exact .nextPipeline hmain hnext
  · next hmain =>
      split_ifs at h with hfree
      obtain rfl := Option.some.inj h
      exact .lockStop hmain hfree
  · next hmain =>
      obtain rfl := Option.some.inj h
      exact .setStop hmain
  · next hmain =>
      obtain rfl := Option.some.inj h
      exact .notifyAll hmain
  · next w hmain =>
      split at h
      · next hw =>
          obtain rfl := Option.some.inj h
          exact .joined hmain hw
      · simp at h
      · next hw =>
          obtain rfl := Option.some.inj h
          exact .destroyed hmain hw
  · simp at h

theorem workerStep_cases {p : Pipeline σ τ} {s s' : PoolState σ τ} {w : ℕ}
    (h : workerStep P p s w = some s') : PoolStep P prog p s false s' := by
  obtain ⟨worker, hw, h⟩ := Option.bind_eq_some_iff.mp h
  cases worker with
  | lockQueue =>
      dsimp only at h
      split_ifs at h with hfree
      obtain rfl := Option.some.inj h
      exact .workerLockQueue hw hfree
  | checkQueue =>
      dsimp only at h
      cases hlast : s.tasks.getLast? with
      | none =>
          rw [hlast] at h
          obtain rfl := Option.some.inj h
          exact .foundNone hw (List.getLast?_eq_none_iff.mp hlast)
      | some threadId =>
          rw [hlast] at h
          obtain rfl := Option.some.inj h
          obtain ⟨tasks, htasks⟩ := List.getLast?_eq_some_iff.mp hlast
          have hdrop : s.tasks.dropLast = tasks := by rw [htasks, List.dropLast_concat]
          rw [hdrop]
          exact .popped hw htasks
  | asleep => simp at h
  | task threadId point =>
      by_cases hpoint : point = .countFinished
      · subst hpoint
        dsimp only at h
        split_ifs at h with hfree
        obtain rfl := Option.some.inj h
        exact .workerLockWait hw hfree
      · have hgeneral : (p.taskStep P s.shared threadId point).map (fun (shared, next) =>
            { s with
              shared := shared
              workers := s.workers.set w (next.elim .lockQueue (.task threadId)) }) = some s' := by
          cases point with
          | countFinished => exact absurd rfl hpoint
          | getData | execute _ _ | storeDone _ _ | isPipelineDone _ _ | sink _ _ => exact h
        obtain ⟨⟨shared, next⟩, htask, rfl⟩ := Option.map_eq_some_iff.mp hgeneral
        obtain ⟨point', rfl⟩ := taskStep_goes_on hpoint htask
        exact .task hw htask
  | counting threadId =>
      obtain rfl := Option.some.inj h
      exact .counted hw rfl
  | exited => simp at h

theorem notifyStep_cases {p : Pipeline σ τ} {s s' : PoolState σ τ} {woken : Option ℕ}
    (h : notifyStep p s woken = some s') : PoolStep P prog p s false s' := by
  unfold notifyStep at h
  split at h
  · next i hmain =>
      cases woken with
      | some w =>
          dsimp only at h
          split_ifs at h with hw
          obtain rfl := Option.some.inj h
          exact .wakeOne hmain (isAsleep_iff.mp hw)
      | none =>
          dsimp only at h
          split_ifs at h with hnobody
          obtain rfl := Option.some.inj h
          exact .wakeNobody hmain fun hmem => hnobody (any_isAsleep.mpr hmem)
  · simp at h

theorem spuriousStep_cases {p : Pipeline σ τ} {s s' : PoolState σ τ} {who : MutexOwner}
    (h : spuriousStep s who = some s') : PoolStep P prog p s true s' := by
  cases who with
  | main =>
      simp only [spuriousStep] at h
      split_ifs at h with hmain
      obtain rfl := Option.some.inj h
      exact .spuriousMain hmain
  | worker w =>
      simp only [spuriousStep] at h
      split_ifs at h with hw
      obtain rfl := Option.some.inj h
      exact .spuriousWorker (isAsleep_iff.mp hw)

/-- **Every step of `Collect`** is one of these. -/
theorem step_cases {s s' : PoolState σ τ} {a : PoolAction} {p : Pipeline σ τ}
    (hp : prog.pipelines[s.stage]? = some p) (h : prog.step P s a = some s') :
    PoolStep P prog p s a.isSpurious s' := by
  have hstage : prog.stagePipeline s = some p := hp
  cases a with
  | main =>
      unfold step at h
      dsimp only at h
      split at h
      · exact collectStep_cases h
      · exact collectStep_cases h
      · exact collectStep_cases h
      · exact collectStep_cases h
      · exact collectStep_cases h
      · rw [hstage] at h
        exact executeStep_cases h
  | notifyOne woken =>
      rw [step, hstage] at h
      exact notifyStep_cases h
  | worker w =>
      rw [step, hstage] at h
      exact workerStep_cases h
  | spurious who => exact spuriousStep_cases h

end PipelineProgram

end ColumnarEngine
