import ColumnarEngine.Exec.ThreadPoolGuarded

/-!
# `Collect` on the pool

Every run of `Collect` is, pipeline by pipeline, a run of `Execute` as `Pipeline` has it
(`collect_refines`): the steps around the mutexes and the notifications do not show there, so what
holds of every run of `Execute` holds on the pool. `Collect` does not deadlock: a run that can only
go on by spurious wake-ups has executed all pipelines and destroyed the pool, with every worker
joined and no task left, unless a call of an operator is undefined (`collect_returns`). And it does
not go on for ever: an infinite run has infinitely many spurious wake-ups (`collect_ends`).
-/

namespace ColumnarEngine

open Found

namespace WorkerPoint

/-- A worker as `Execute` sees it. -/
def toThread : WorkerPoint → PoolThread
  | .task threadId point => .running threadId point
  | .counting threadId => .running threadId .countFinished
  | .lockQueue | .checkQueue | .asleep | .exited => .waiting

end WorkerPoint

namespace MainPoint

/-- The main thread as `Execute` sees it: the tasks enqueued, and whether it has called
`Finalize`. -/
def view (numThreads : ℕ) : MainPoint → ℕ × Bool × Bool
  | .lockQueue i | .pushTask i => (i, false, false)
  | .notifyOne i => (i + 1, false, false)
  | .lockWait | .checkWait | .asleep => (numThreads, false, false)
  | .finalize => (numThreads, true, false)
  | .executed | .lockStop | .setStop | .notifyAll | .join _ | .destroyed => (numThreads, true, true)

/-- In the loop that enqueues the tasks. -/
def Enqueues (threadId : ℕ) : MainPoint → Prop
  | .lockQueue i | .pushTask i | .notifyOne i => i = threadId
  | _ => False

/-- In `~ThreadPool`. -/
def Destroys : MainPoint → Prop
  | .lockStop | .setStop | .notifyAll | .join _ | .destroyed => True
  | _ => False

end MainPoint

/-- The `Execute` of the pipeline on the pool. -/
def PoolState.toExec {σ τ : Type*} (p : Pipeline σ τ) (s : PoolState σ τ) : ExecState σ τ where
  shared := s.shared
  enqueued := (s.main.view p.numThreads).1
  tasks := s.tasks
  threads := s.workers.map WorkerPoint.toThread
  finalizing := (s.main.view p.numThreads).2.1
  finalized := (s.main.view p.numThreads).2.2
  started := s.started

namespace PipelineProgram

variable {σ τ : Type*} {P : Platform} {prog : PipelineProgram σ τ} {p : Pipeline σ τ}
  {s s' : PoolState σ τ} {spurious : Bool}

/-! ## One step -/

/-- Nothing that `Execute` sees has changed. -/
theorem toExec_eq (hshared : s'.shared = s.shared) (htasks : s'.tasks = s.tasks)
    (hstarted : s'.started = s.started)
    (hworkers : s'.workers.map WorkerPoint.toThread = s.workers.map WorkerPoint.toThread)
    (hmain : s'.main.view p.numThreads = s.main.view p.numThreads) :
    s'.toExec p = s.toExec p := by
  unfold PoolState.toExec
  rw [hshared, htasks, hstarted, hworkers, hmain]

/-- A worker that moves within its loop. -/
theorem map_toThread_set {workers : List WorkerPoint} {w : ℕ} {old new : WorkerPoint}
    (hw : workers[w]? = some old) (hview : new.toThread = old.toThread) :
    (workers.set w new).map WorkerPoint.toThread = workers.map WorkerPoint.toThread := by
  obtain ⟨hlt, rfl⟩ := List.getElem?_eq_some_iff.mp hw
  rw [List.map_set, hview, ← List.getElem_map WorkerPoint.toThread, List.set_getElem_self]
  rwa [List.length_map]

/-- The next task, or the wait. -/
theorem view_enqueueFrom {i : ℕ} (hi : i ≤ p.numThreads) :
    (enqueueFrom p i).view p.numThreads = (i, false, false) := by
  unfold enqueueFrom
  split_ifs with hlt
  · rfl
  · rw [show i = p.numThreads by omega]
    rfl

theorem enqueues_enqueueFrom {i j : ℕ} (h : (enqueueFrom p i).Enqueues j) : j < p.numThreads := by
  unfold enqueueFrom at h
  split_ifs at h with hlt
  · exact h ▸ hlt
  · exact h.elim

theorem view_of_main {m m' : MainPoint} {n : ℕ} (hm : s.main = m) (h : m'.view n = m.view n) :
    m'.view n = s.main.view n := hm ▸ h

/-- **Every step** within a pipeline is a step of `Execute`, or does not show. -/
theorem PoolStep.toExec (hloop : ∀ i, s.main.Enqueues i → i < p.numThreads)
    (hstep : PoolStep P prog p s spurious s') (hstage : s'.stage = s.stage) :
    s'.toExec p = s.toExec p ∨ ∃ a, p.step P (s.toExec p) a = some (s'.toExec p) := by
  cases hstep with
  | lockQueue hmain _ | lockWait hmain _ | fellAsleep hmain _ | lastPipeline hmain _
  | lockStop hmain _ | setStop hmain | joined hmain _ | destroyed hmain _ | spuriousMain hmain =>
      exact .inl (toExec_eq rfl rfl rfl rfl (view_of_main hmain rfl))
  | @pushTask i hmain =>
      have hlt := hloop i (hmain ▸ rfl)
      refine .inr ⟨.enqueue, ?_⟩
      simp [Pipeline.step, PoolState.toExec, hmain, MainPoint.view, hlt]
  | @wakeOne i w hmain hw =>
      have hlt := hloop i (hmain ▸ rfl)
      refine .inl (toExec_eq rfl rfl rfl (map_toThread_set hw rfl) (view_of_main hmain ?_))
      exact view_enqueueFrom hlt
  | @wakeNobody i hmain _ =>
      have hlt := hloop i (hmain ▸ rfl)
      refine .inl (toExec_eq rfl rfl rfl rfl (view_of_main hmain ?_))
      exact view_enqueueFrom hlt
  | waited hmain hready =>
      refine .inr ⟨.wakeUp, ?_⟩
      simp [Pipeline.step, PoolState.toExec, hmain, MainPoint.view, hready]
  | finalize hmain hsink =>
      refine .inr ⟨.finalize, ?_⟩
      simp [Pipeline.step, PoolState.toExec, hmain, MainPoint.view, hsink]
  | nextPipeline _ _ => exact absurd hstage (Nat.succ_ne_self _)
  | notifyAll hmain =>
      refine .inl (toExec_eq rfl rfl rfl ?_ (view_of_main hmain rfl))
      rw [List.map_map]
      congr 1
      funext point
      cases point <;> rfl
  | workerLockQueue hw _ | workerLockWait hw _ | spuriousWorker hw =>
      exact .inl (toExec_eq rfl rfl rfl (map_toThread_set hw rfl) rfl)
  | foundNone hw _ =>
      refine .inl (toExec_eq rfl rfl rfl (map_toThread_set hw ?_) rfl)
      split_ifs <;> rfl
  | @popped w threadId tasks hw htasks =>
      refine .inr ⟨.thread w, ?_⟩
      simp [Pipeline.step, Pipeline.threadStep, PoolState.toExec, hw, htasks, List.map_set,
        WorkerPoint.toThread]
  | @task w threadId point point' shared hw htask =>
      refine .inr ⟨.thread w, ?_⟩
      simp [Pipeline.step, Pipeline.threadStep, PoolState.toExec, hw, htask, List.map_set,
        WorkerPoint.toThread]
  | @counted w threadId main hw hmain =>
      refine .inr ⟨.thread w, ?_⟩
      have hview : main.view p.numThreads = s.main.view p.numThreads := by
        subst hmain
        split_ifs with hready
        · exact view_of_main hready.2 rfl
        · rfl
      simp [Pipeline.step, Pipeline.threadStep, Pipeline.taskStep, PoolState.toExec, hw, hview,
        List.map_set, WorkerPoint.toThread]

/-! ## Whole runs -/

variable (P prog) in
/-- `Execute` of the pipelines before a stage has returned, each on the source that the one before
has left; `source` is that of the stage. -/
inductive Executed (poolSize : ℕ) : ℕ → σ → Prop
  | first : Executed poolSize 0 prog.firstSource
  | next {stage : ℕ} {source : σ} {q : Pipeline σ τ} {as : List Action} {final : ExecState σ τ}
      (h : Executed poolSize stage source) (hq : prog.pipelines[stage]? = some q)
      (hrun : run (q.step P) (Pipeline.init source (prog.sink stage) poolSize) as = some final)
      (hfinal : final.finalized = true) :
      Executed poolSize (stage + 1) (prog.source stage final.shared.sink)

variable (P prog) in
/-- The run so far is a run of `Execute` of the pipeline `p`, after the `Execute` of those before.
-/
structure Refines (poolSize : ℕ) (p : Pipeline σ τ) (s : PoolState σ τ) : Prop where
  stage : prog.pipelines[s.stage]? = some p
  run : ∃ source as, Executed P prog poolSize s.stage source ∧
    run (p.step P) (Pipeline.init source (prog.sink s.stage) poolSize) as = some (s.toExec p)
  loop : ∀ i, s.main.Enqueues i → i < p.numThreads
  last : s.main.Destroys → prog.pipelines[s.stage + 1]? = none
  guarded : Guarded p s

theorem not_destroys_enqueueFrom (p : Pipeline σ τ) (i : ℕ) : ¬ (enqueueFrom p i).Destroys :=
  not_enqueueFrom p i id id

/-- The loop of `Enqueue` calls stays below `num_threads`. -/
theorem PoolStep.loop (hloop : ∀ i, s.main.Enqueues i → i < p.numThreads)
    (hstep : PoolStep P prog p s spurious s') (hstage : s'.stage = s.stage) (i : ℕ)
    (hi : s'.main.Enqueues i) : i < p.numThreads := by
  cases hstep with
  | lockQueue hmain _ | pushTask hmain => exact hloop i (hmain ▸ hi)
  | wakeOne _ _ | wakeNobody _ _ => exact enqueues_enqueueFrom hi
  | nextPipeline _ _ => exact absurd hstage (Nat.succ_ne_self _)
  | lockWait _ _ | waited _ _ | fellAsleep _ _ | finalize _ _ | lastPipeline _ _ | lockStop _ _
  | setStop _ | notifyAll _ | joined _ _ | destroyed _ _ | spuriousMain _ => exact hi.elim
  | workerLockQueue _ _ | popped _ _ | foundNone _ _ | task _ _ | workerLockWait _ _
  | spuriousWorker _ => exact hloop i hi
  | counted _ hmain =>
      subst hmain
      dsimp only at hi
      split_ifs at hi
      · exact hi.elim
      · exact hloop i hi

/-- The pool is destroyed after the last pipeline. -/
theorem PoolStep.last (hlast : s.main.Destroys → prog.pipelines[s.stage + 1]? = none)
    (hstep : PoolStep P prog p s spurious s') (hdestroys : s'.main.Destroys) :
    prog.pipelines[s'.stage + 1]? = none := by
  cases hstep with
  | lastPipeline _ hnext => exact hnext
  | lockStop hmain _ | setStop hmain | notifyAll hmain | joined hmain _ | destroyed hmain _ =>
      exact hlast (hmain ▸ trivial)
  | lockQueue _ _ | pushTask _ | lockWait _ _ | waited _ _ | fellAsleep _ _ | finalize _ _
  | spuriousMain _ => exact hdestroys.elim
  | wakeOne _ _ | wakeNobody _ _ | nextPipeline _ _ =>
      exact absurd hdestroys (not_destroys_enqueueFrom _ _)
  | workerLockQueue _ _ | popped _ _ | foundNone _ _ | task _ _ | workerLockWait _ _
  | spuriousWorker _ => exact hlast hdestroys
  | counted _ hmain =>
      subst hmain
      dsimp only at hdestroys
      split_ifs at hdestroys
      · exact hdestroys.elim
      · exact hlast hdestroys

/-- `Execute` of the next pipeline starts when that of the last has returned, on a pool without
tasks. -/
theorem Refines.nextPipeline {poolSize : ℕ} (h : Refines P prog poolSize p s)
    {q : Pipeline σ τ} (hmain : s.main = .executed) :
    ∃ source as, Executed P prog poolSize (s.stage + 1) source ∧
      Found.run (q.step P) (Pipeline.init source (prog.sink (s.stage + 1)) poolSize) as =
        some (PoolState.toExec q { s with
          stage := s.stage + 1
          shared := freshShared (prog.source s.stage s.shared.sink) (prog.sink (s.stage + 1))
          main := enqueueFrom q 0
          started := [] }) := by
  obtain ⟨source, as, hexecuted, hrun⟩ := h.run
  have hfinal : (s.toExec p).finalized = true := by simp [PoolState.toExec, hmain, MainPoint.view]
  obtain ⟨hsched, hsink, hlen⟩ := Pipeline.scheduled_of_run hrun
  have hreturned := hsched.returns hsink hfinal
  have htasks : s.tasks = [] := by
    have hstarted := hsched.started_add_tasks
    rw [hreturned.tasks.length_eq, List.length_range,
      (hsched.waited (hsched.returned hfinal)).1] at hstarted
    exact List.length_eq_zero_iff.mp (Nat.add_eq_left.mp hstarted)
  have hthreads : s.workers.map WorkerPoint.toThread = List.replicate poolSize .waiting :=
    List.eq_replicate_iff.mpr ⟨hlen, hreturned.idle⟩
  refine ⟨_, [], .next hexecuted h.stage hrun hfinal, ?_⟩
  rw [run_nil]
  unfold PoolState.toExec
  rw [view_enqueueFrom (Nat.zero_le _), hthreads, htasks]
  rfl

/-- **Every step** of `Collect` keeps the run of `Execute`. -/
theorem Refines.step {poolSize : ℕ} {a : PoolAction} (h : Refines P prog poolSize p s)
    (hstep : prog.step P s a = some s') : ∃ q, Refines P prog poolSize q s' := by
  have hcases := step_cases h.stage hstep
  generalize a.isSpurious = spurious at hcases
  obtain ⟨q, hq, hguarded⟩ := hcases.guarded h.stage h.guarded
  refine ⟨q, hq, ?_, ?_, hcases.last h.last, hguarded⟩
  · rcases hcases.stage with hstage | ⟨hstage, -, -⟩
    · obtain rfl : p = q := Option.some.inj (h.stage.symm.trans (hstage ▸ hq))
      obtain ⟨source, as, hexecuted, hrun⟩ := h.run
      rw [hstage]
      refine ⟨source, ?_⟩
      rcases hcases.toExec h.loop hstage with hsame | ⟨b, hb⟩
      · exact ⟨as, hexecuted, hsame ▸ hrun⟩
      · exact ⟨as ++ [b], hexecuted, run_concat.mpr ⟨_, hrun, hb⟩⟩
    · cases hcases with
      | nextPipeline hmain hnext =>
          obtain rfl := Option.some.inj (hnext.symm.trans hq)
          exact h.nextPipeline hmain
      | _ => exact absurd hstage.symm (Nat.succ_ne_self _)
  · intro i hi
    rcases hcases.stage with hstage | ⟨hstage, -, -⟩
    · obtain rfl : p = q := Option.some.inj (h.stage.symm.trans (hstage ▸ hq))
      exact hcases.loop h.loop hstage i hi
    · cases hcases with
      | nextPipeline hmain hnext =>
          obtain rfl := Option.some.inj (hnext.symm.trans hq)
          exact enqueues_enqueueFrom hi
      | _ => exact absurd hstage.symm (Nat.succ_ne_self _)

/-- `Collect` starts with the first pipeline. -/
theorem refines_init (hp : prog.pipelines[0]? = some p) (poolSize : ℕ) :
    Refines P prog poolSize p (prog.init poolSize) := by
  have hmain : (prog.init poolSize).main = enqueueFrom p 0 := by simp [init, hp]
  refine ⟨hp, ⟨_, [], .first, ?_⟩, ?_, ?_, guarded_init hp poolSize⟩
  · rw [run_nil]
    unfold PoolState.toExec
    rw [hmain, view_enqueueFrom (Nat.zero_le _)]
    simp [init, Pipeline.init, freshShared, WorkerPoint.toThread]
  · intro i hi
    exact enqueues_enqueueFrom (hmain ▸ hi)
  · intro hdestroys
    exact absurd (hmain ▸ hdestroys) (not_destroys_enqueueFrom p 0)

/-- **`Collect` refines `Execute`**: in every state of a run, the pipelines before the current one
have been executed, each on the finalized sink of the one before, and what the pool has done since
is a run of `Execute` of the current one. -/
theorem collect_refines (hne : prog.pipelines ≠ []) {poolSize : ℕ} {as : List PoolAction}
    (hrun : Found.run (prog.step P) (prog.init poolSize) as = some s) :
    ∃ q, Refines P prog poolSize q s := by
  obtain ⟨p, hp⟩ : ∃ p, prog.pipelines[0]? = some p :=
    ⟨_, List.getElem?_eq_getElem (List.length_pos_of_ne_nil hne)⟩
  exact run_invariant (I := fun s => ∃ q, Refines P prog poolSize q s)
    (fun s a s' ⟨q, h⟩ hstep => h.step hstep) ⟨p, refines_init hp poolSize⟩ hrun

/-- Two pipelines over the example table: a filter, then a limit on the table again. -/
def exampleProgram : PipelineProgram ScanOperator (List RecordBatch) where
  pipelines := [Pipeline.examplePipeline [Pipeline.equalsFive], Pipeline.examplePipeline [.limit 1]]
  sink := fun _ => []
  firstSource := Pipeline.exampleScan
  source := fun _ _ => Pipeline.exampleScan

/-- The first pipeline on one worker, which has gone to sleep before the task is there. -/
def exampleFirst : List PoolAction :=
  [.worker 0, .worker 0, .main, .main, .notifyOne (some 0)] ++ List.replicate 11 (.worker 0) ++
    List.replicate 4 .main

/-- The second one, and the end of the pool. -/
def exampleSecond : List PoolAction :=
  [.main, .main, .notifyOne (some 0)] ++ List.replicate 11 (.worker 0) ++ List.replicate 7 .main ++
    [.worker 0, .worker 0, .main, .main]

/-- After the first pipeline, the second one runs on the same pool. -/
theorem collect_refines_two_pipelines :
    ∃ s q, run (exampleProgram.step Platform.integral) (exampleProgram.init 1)
        (exampleFirst ++ exampleSecond.take 10) = some s ∧ s.stage = 1 ∧
      Refines Platform.integral exampleProgram 1 q s := by
  have hrun : (run (exampleProgram.step Platform.integral) (exampleProgram.init 1)
      (exampleFirst ++ exampleSecond.take 10)).map (fun s => s.stage) = some 1 := by decide
  obtain ⟨s, hs, hstage⟩ := Option.map_eq_some_iff.mp hrun
  obtain ⟨q, h⟩ := collect_refines (by decide) hs
  exact ⟨s, q, hs, hstage, h⟩

/-! ## No deadlock -/

section stuck

variable {poolSize : ℕ}

/-- Only a spurious wake-up is possible. -/
def Stuck (P : Platform) (prog : PipelineProgram σ τ) (s : PoolState σ τ) : Prop :=
  ∀ a, a.isSpurious = false → prog.step P s a = none

/-- Nobody is between the acquisition of `queue_mutex_` and its release. -/
theorem Refines.queue_free (h : Refines P prog poolSize p s) (hstuck : Stuck P prog s) :
    s.queueMutex = none := by
  have hp : prog.stagePipeline s = some p := h.stage
  cases hq : s.queueMutex with
  | none => rfl
  | some o =>
      exfalso
      have hin := (h.guarded.queue o).mp hq
      cases o with
      | main =>
          have hnone := hstuck .main rfl
          change s.main.holdsQueue at hin
          cases hm : s.main with
          | pushTask i => simp [PipelineProgram.step, hm, hp, executeStep] at hnone
          | setStop => simp [PipelineProgram.step, hm, collectStep] at hnone
          | _ =>
              rw [hm] at hin
              exact hin
      | worker w =>
          obtain ⟨point, hw, hpoint⟩ := hin
          have hnone := hstuck (.worker w) rfl
          cases point with
          | checkQueue =>
              cases hlast : s.tasks.getLast? <;>
                simp [PipelineProgram.step, hp, workerStep, hw, hlast] at hnone
          | _ => exact hpoint

/-- Nobody is between the acquisition of `wait_mutex` and its release. -/
theorem Refines.wait_free (h : Refines P prog poolSize p s) (hstuck : Stuck P prog s) :
    s.waitMutex = none := by
  have hp : prog.stagePipeline s = some p := h.stage
  cases hq : s.waitMutex with
  | none => rfl
  | some o =>
      exfalso
      have hin := (h.guarded.wait o).mp hq
      cases o with
      | main =>
          have hnone := hstuck .main rfl
          change s.main.holdsWait at hin
          cases hm : s.main with
          | checkWait => simp [PipelineProgram.step, hm, hp, executeStep] at hnone
          | _ =>
              rw [hm] at hin
              exact hin
      | worker w =>
          obtain ⟨point, hw, hpoint⟩ := hin
          have hnone := hstuck (.worker w) rfl
          cases point with
          | counting threadId => simp [PipelineProgram.step, hp, workerStep, hw] at hnone
          | _ => exact hpoint

/-- Every worker sleeps, has left, or is about to make an undefined call. -/
theorem Refines.workers_stuck (h : Refines P prog poolSize p s) (hstuck : Stuck P prog s)
    (hdefined : ¬ p.Undefined P (s.toExec p)) {w : ℕ} {point : WorkerPoint}
    (hw : s.workers[w]? = some point) : point = .asleep ∨ point = .exited := by
  have hp : prog.stagePipeline s = some p := h.stage
  have hqueue := h.queue_free hstuck
  have hwait := h.wait_free hstuck
  have hnone := hstuck (.worker w) rfl
  cases point with
  | asleep => exact .inl rfl
  | exited => exact .inr rfl
  | lockQueue => simp [PipelineProgram.step, hp, workerStep, hw, hqueue] at hnone
  | checkQueue =>
      cases hlast : s.tasks.getLast? <;>
        simp [PipelineProgram.step, hp, workerStep, hw, hlast] at hnone
  | counting threadId => simp [PipelineProgram.step, hp, workerStep, hw] at hnone
  | task threadId point =>
      exfalso
      cases htask : p.taskStep P s.shared threadId point with
      | none =>
          apply hdefined
          refine .inl ⟨threadId, point, ?_, htask⟩
          exact List.mem_map.mpr ⟨_, List.mem_of_getElem? hw, rfl⟩
      | some next =>
          cases point with
          | countFinished => simp [PipelineProgram.step, hp, workerStep, hw, hwait] at hnone
          | getData | execute _ _ | storeDone _ _ | isPipelineDone _ _ | sink _ _ =>
              simp [PipelineProgram.step, hp, workerStep, hw, htask] at hnone

/-- The main thread does not wait for ever: if it sleeps while all workers sleep, then all tasks
have been counted and it has been woken. -/
theorem Refines.not_asleep (h : Refines P prog poolSize p s) (hpool : 0 < poolSize)
    (hworkers : ∀ (w : ℕ) (point : WorkerPoint), s.workers[w]? = some point →
      point = .asleep ∨ point = .exited) :
    s.main ≠ .asleep := by
  intro hmain
  obtain ⟨source, as, -, hrun⟩ := h.run
  obtain ⟨hsched, -, hlen⟩ := Pipeline.scheduled_of_run hrun
  have hstop : s.stop = false := by
    rw [← Bool.not_eq_true, h.guarded.stop, hmain]
    exact id
  -- nobody has left, so all sleep, and the queue is empty
  have hall : ∀ point ∈ s.workers, point = .asleep := by
    intro point hmem
    obtain ⟨w, hw⟩ := List.getElem?_of_mem hmem
    apply (hworkers w point hw).resolve_right
    rintro rfl
    rw [h.guarded.exited hmem] at hstop
    simp at hstop
  have hpos : s.workers ≠ [] := by
    rintro hnil
    rw [PoolState.toExec, hnil] at hlen
    exact hpool.ne hlen
  obtain ⟨point, hmem⟩ := List.exists_mem_of_ne_nil _ hpos
  have hcoming : s.coming = 0 := by
    apply List.sum_eq_zero
    intro n hn
    obtain ⟨point, hmem, rfl⟩ := List.mem_map.mp hn
    rw [hall point hmem]
    rfl
  have htasks := h.guarded.woken (hall point hmem ▸ hmem)
  rw [hcoming, hmain] at htasks
  have hidle : ((s.toExec p).threads.map Pipeline.isRunning).sum = 0 := by
    apply List.sum_eq_zero
    intro n hn
    obtain ⟨thread, hthread, rfl⟩ := List.mem_map.mp hn
    obtain ⟨point, hmem, rfl⟩ := List.mem_map.mp hthread
    rw [hall point hmem]
    rfl
  have hcounted := hsched.counted
  have hstarted := hsched.started_add_tasks
  rw [hidle, add_zero] at hcounted
  apply h.guarded.latch hmain
  have henqueued : (s.toExec p).enqueued = p.numThreads := by
    simp [PoolState.toExec, hmain, MainPoint.view]
  rw [henqueued] at hstarted
  simp only [PoolState.toExec, MainPoint.pendingNotify] at hcounted hstarted htasks
  omega

/-- Where only a spurious wake-up is possible, the pool has been destroyed, or a call is
undefined. -/
theorem Refines.destroyed_of_stuck (h : Refines P prog poolSize p s) (hpool : 0 < poolSize)
    (hstuck : Stuck P prog s) (hdefined : ¬ p.Undefined P (s.toExec p)) :
    s.main = .destroyed := by
  have hp : prog.stagePipeline s = some p := h.stage
  have hqueue := h.queue_free hstuck
  have hwait := h.wait_free hstuck
  have hworkers := fun w point (hw : s.workers[w]? = some point) =>
    h.workers_stuck hstuck hdefined hw
  have hnone := hstuck .main rfl
  cases hm : s.main with
  | destroyed => rfl
  | asleep => exact absurd hm (h.not_asleep hpool hworkers)
  | lockQueue i => simp [PipelineProgram.step, hm, hp, executeStep, hqueue] at hnone
  | pushTask i => simp [PipelineProgram.step, hm, hp, executeStep] at hnone
  | notifyOne i =>
      exfalso
      by_cases hasleep : .asleep ∈ s.workers
      · obtain ⟨w, hw⟩ := List.getElem?_of_mem hasleep
        have hnotify := hstuck (.notifyOne (some w)) rfl
        simp [PipelineProgram.step, hp, notifyStep, hm, isAsleep_iff.mpr hw] at hnotify
      · have hnotify := hstuck (.notifyOne none) rfl
        rw [← any_isAsleep, Bool.not_eq_true] at hasleep
        simp [PipelineProgram.step, hp, notifyStep, hm, hasleep] at hnotify
  | lockWait => simp [PipelineProgram.step, hm, hp, executeStep, hwait] at hnone
  | checkWait => simp [PipelineProgram.step, hm, hp, executeStep] at hnone
  | finalize =>
      exfalso
      cases hsink : p.sink.finalize s.shared.sink with
      | none =>
          apply hdefined
          exact .inr ⟨by simp [PoolState.toExec, hm, MainPoint.view],
            by simp [PoolState.toExec, hm, MainPoint.view], hsink⟩
      | some sink => simp [PipelineProgram.step, hm, hp, executeStep, hsink] at hnone
  | executed => simp [PipelineProgram.step, hm, collectStep] at hnone
  | lockStop => simp [PipelineProgram.step, hm, collectStep, hqueue] at hnone
  | setStop => simp [PipelineProgram.step, hm, collectStep] at hnone
  | notifyAll => simp [PipelineProgram.step, hm, collectStep] at hnone
  | join w =>
      exfalso
      cases hw : s.workers[w]? with
      | none => simp [PipelineProgram.step, hm, collectStep, hw] at hnone
      | some point =>
          rcases hworkers w point hw with rfl | rfl
          · exact h.guarded.awake (hm ▸ trivial) (List.mem_of_getElem? hw)
          · simp [PipelineProgram.step, hm, collectStep, hw] at hnone

end stuck

/-- `Collect` has returned: the pool is destroyed, all its workers have been joined and the queue is
empty; all pipelines have been executed, each on the finalized sink of the one before. -/
structure Collected (P : Platform) (prog : PipelineProgram σ τ) (poolSize : ℕ)
    (s : PoolState σ τ) : Prop where
  destroyed : s.main = .destroyed
  joined : ∀ point ∈ s.workers, point = .exited
  tasks : s.tasks = []
  last : s.stage + 1 = prog.pipelines.length
  executed : ∃ source, Executed P prog poolSize (s.stage + 1) source

/-- A destroyed pool has done its work. -/
theorem Refines.collected {poolSize : ℕ} (h : Refines P prog poolSize p s)
    (hmain : s.main = .destroyed) : Collected P prog poolSize s := by
  obtain ⟨source, as, hexecuted, hrun⟩ := h.run
  have hfinal : (s.toExec p).finalized = true := by simp [PoolState.toExec, hmain, MainPoint.view]
  obtain ⟨hsched, hsink, -⟩ := Pipeline.scheduled_of_run hrun
  have hreturned := hsched.returns hsink hfinal
  have hlast := h.last (hmain ▸ trivial)
  have hlt := (List.getElem?_eq_some_iff.mp h.stage).1
  refine ⟨hmain, ?_, ?_, ?_, _, .next hexecuted h.stage hrun hfinal⟩
  · intro point hmem
    obtain ⟨w, hw⟩ := List.getElem?_of_mem hmem
    exact h.guarded.joined w point hw (hmain ▸ trivial)
  · have hstarted := hsched.started_add_tasks
    rw [hreturned.tasks.length_eq, List.length_range,
      (hsched.waited (hsched.returned hfinal)).1] at hstarted
    exact List.length_eq_zero_iff.mp (Nat.add_eq_left.mp hstarted)
  · have hle := List.getElem?_eq_none_iff.mp hlast
    omega

/-- Behind the destructor nothing happens. -/
theorem Collected.stuck {poolSize : ℕ} (h : Collected P prog poolSize s) : Stuck P prog s := by
  intro a ha
  cases a with
  | spurious who => simp [PoolAction.isSpurious] at ha
  | main =>
      cases hp : prog.stagePipeline s <;>
        simp [PipelineProgram.step, h.destroyed, hp, executeStep]
  | notifyOne woken =>
      cases hp : prog.stagePipeline s <;>
        simp [PipelineProgram.step, h.destroyed, hp, notifyStep]
  | worker w =>
      cases hp : prog.stagePipeline s with
      | none => simp [PipelineProgram.step, hp]
      | some p =>
          cases hw : s.workers[w]? with
          | none => simp [PipelineProgram.step, hp, workerStep, hw]
          | some point =>
              obtain rfl := h.joined point (List.mem_of_getElem? hw)
              simp [PipelineProgram.step, hp, workerStep, hw]

/-- **`Collect` does not deadlock**: where a run can only go on by spurious wake-ups, it has
returned, or an operator call that somebody is about to make is undefined. -/
theorem collect_returns (hne : prog.pipelines ≠ []) {poolSize : ℕ} (hpool : 0 < poolSize)
    {as : List PoolAction} (hrun : Found.run (prog.step P) (prog.init poolSize) as = some s)
    (hstuck : Stuck P prog s) :
    Collected P prog poolSize s ∨
      ∃ q, prog.pipelines[s.stage]? = some q ∧ q.Undefined P (s.toExec q) := by
  obtain ⟨q, h⟩ := collect_refines hne hrun
  by_cases hdefined : q.Undefined P (s.toExec q)
  · exact .inr ⟨q, h.stage, hdefined⟩
  · exact .inl (h.collected (h.destroyed_of_stuck hpool hstuck hdefined))

/-- Two pipelines on one worker, to the end. -/
theorem collect_returns_two_pipelines :
    ∃ s, run (exampleProgram.step Platform.integral) (exampleProgram.init 1)
        (exampleFirst ++ exampleSecond) = some s ∧ Stuck Platform.integral exampleProgram s ∧
      (Collected Platform.integral exampleProgram 1 s ∨
        ∃ q, exampleProgram.pipelines[s.stage]? = some q ∧
          q.Undefined Platform.integral (s.toExec q)) := by
  have hrun : (run (exampleProgram.step Platform.integral) (exampleProgram.init 1)
      (exampleFirst ++ exampleSecond)).map (fun s => s.main) = some .destroyed := by decide
  obtain ⟨s, hs, hmain⟩ := Option.map_eq_some_iff.mp hrun
  obtain ⟨q, h⟩ := collect_refines (by decide) hs
  have hstuck := (h.collected hmain).stuck
  exact ⟨s, hs, hstuck, collect_returns (by decide) (by decide) hs hstuck⟩

/-! ## The steps that are left -/

/-- The steps of a worker until it sleeps or has left; its last one in a task may wake the main
thread for two more. -/
def workerStepsLeft (p : Pipeline σ τ) : WorkerPoint → ℕ
  | .asleep | .exited => 0
  | .checkQueue => 1
  | .lockQueue => 2
  | .counting _ => 5
  | .task _ point => p.stepsLeft point + 5

/-- The steps of the main thread from the wait on, with those of the workers that it wakes at the
end. -/
def waitStepsLeft (poolSize : ℕ) : ℕ := 3 * poolSize + 6

/-- The steps of the main thread, with those of the tasks to be enqueued and of the workers to be
woken. -/
def mainStepsLeft (p : Pipeline σ τ) (poolSize : ℕ) : MainPoint → ℕ
  | .lockQueue i => 13 * (p.numThreads - (i + 1)) + waitStepsLeft poolSize + 15
  | .pushTask i => 13 * (p.numThreads - (i + 1)) + waitStepsLeft poolSize + 14
  | .notifyOne i => 13 * (p.numThreads - (i + 1)) + waitStepsLeft poolSize + 5
  | .lockWait => waitStepsLeft poolSize + 2
  | .checkWait => waitStepsLeft poolSize + 1
  | .asleep | .finalize => waitStepsLeft poolSize
  | .executed => 3 * poolSize + 5
  | .lockStop => 3 * poolSize + 4
  | .setStop => 3 * poolSize + 3
  | .notifyAll => 3 * poolSize + 2
  | .join w => poolSize - w + 1
  | .destroyed => 0

/-- The steps that are left in the `Execute` of a pipeline and behind it, at most, if nobody wakes
up spuriously. -/
def stepsLeft (p : Pipeline σ τ) (s : PoolState σ τ) : ℕ :=
  mainStepsLeft p s.workers.length s.main + (s.workers.map (workerStepsLeft p)).sum +
    8 * s.tasks.length + p.stepsPerBatch * (p.source.pending s.shared.source).length

theorem mainStepsLeft_enqueueFrom (p : Pipeline σ τ) (poolSize i : ℕ) :
    mainStepsLeft p poolSize (enqueueFrom p i) ≤
      13 * (p.numThreads - i) + waitStepsLeft poolSize + 2 := by
  unfold enqueueFrom
  split_ifs with hlt
  · simp only [mainStepsLeft]
    omega
  · simp only [mainStepsLeft]
    omega

/-- `notify_all` costs each worker two steps at most. -/
theorem sum_wake_le (p : Pipeline σ τ) (workers : List WorkerPoint) :
    ((workers.map WorkerPoint.wake).map (workerStepsLeft p)).sum ≤
      (workers.map (workerStepsLeft p)).sum + 2 * workers.length := by
  induction workers with
  | nil => rfl
  | cons point workers ih =>
      have hpoint : workerStepsLeft p point.wake ≤ workerStepsLeft p point + 2 := by
        cases point <;> simp [WorkerPoint.wake, workerStepsLeft]
      simp only [List.map_cons, List.sum_cons, List.length_cons]
      omega

/-- **Every step** that is not a spurious wake-up lowers the steps that are left, or goes on to the
next pipeline. -/
theorem PoolStep.stepsLeft (hstep : PoolStep P prog p s false s') (hstage : s'.stage = s.stage) :
    PipelineProgram.stepsLeft p s' < PipelineProgram.stepsLeft p s := by
  unfold PipelineProgram.stepsLeft
  cases hstep with
  | lockQueue hmain _ | lockWait hmain _ | waited hmain _ | fellAsleep hmain _ | finalize hmain _
  | lastPipeline hmain _ | lockStop hmain _ | setStop hmain | destroyed hmain _ =>
      simp only [hmain, mainStepsLeft, waitStepsLeft]
      omega
  | pushTask hmain =>
      simp only [hmain, mainStepsLeft, waitStepsLeft, List.length_append, List.length_singleton]
      omega
  | @wakeOne i w hmain hw =>
      have hsum := sum_map_set (b := .lockQueue) (workerStepsLeft p) hw
      have henqueue := mainStepsLeft_enqueueFrom p s.workers.length (i + 1)
      have hnotify : mainStepsLeft p s.workers.length (.notifyOne i) =
          13 * (p.numThreads - (i + 1)) + waitStepsLeft s.workers.length + 5 := rfl
      simp only [hmain, workerStepsLeft, List.length_set] at hsum ⊢
      omega
  | @wakeNobody i hmain _ =>
      have henqueue := mainStepsLeft_enqueueFrom p s.workers.length (i + 1)
      have hnotify : mainStepsLeft p s.workers.length (.notifyOne i) =
          13 * (p.numThreads - (i + 1)) + waitStepsLeft s.workers.length + 5 := rfl
      dsimp only
      rw [hmain]
      omega
  | nextPipeline _ _ => exact absurd hstage (Nat.succ_ne_self _)
  | notifyAll hmain =>
      have hwake := sum_wake_le p s.workers
      simp only [hmain, mainStepsLeft, List.length_map]
      omega
  | @joined w hmain hw =>
      have hlt := (List.getElem?_eq_some_iff.mp hw).1
      simp only [hmain, mainStepsLeft]
      omega
  | @workerLockQueue w hw _ =>
      have hsum := sum_map_set (b := .checkQueue) (workerStepsLeft p) hw
      simp only [workerStepsLeft, List.length_set] at hsum ⊢
      omega
  | @popped w threadId tasks hw htasks =>
      have hsum := sum_map_set (b := .task threadId .getData) (workerStepsLeft p) hw
      simp only [workerStepsLeft, Pipeline.stepsLeft, List.length_set, htasks, List.length_append,
        List.length_singleton] at hsum ⊢
      omega
  | @foundNone w hw _ =>
      have hsum := sum_map_set (b := if s.stop then .exited else .asleep) (workerStepsLeft p) hw
      have hnew : workerStepsLeft p (if s.stop then .exited else .asleep) = 0 := by
        split_ifs <;> rfl
      rw [hnew] at hsum
      simp only [workerStepsLeft, List.length_set] at hsum ⊢
      omega
  | @task w threadId point point' shared hw htask =>
      have hsum := sum_map_set (b := .task threadId point') (workerStepsLeft p) hw
      have hlt := (Pipeline.taskStep_cases htask).stepsLeft
      simp only [workerStepsLeft, Option.elim_some, List.length_set] at hsum hlt ⊢
      omega
  | @workerLockWait w threadId hw _ =>
      have hsum := sum_map_set (b := .counting threadId) (workerStepsLeft p) hw
      simp only [workerStepsLeft, Pipeline.stepsLeft, List.length_set] at hsum ⊢
      omega
  | @counted w threadId main hw hmain =>
      have hsum := sum_map_set (b := .lockQueue) (workerStepsLeft p) hw
      have hwake : mainStepsLeft p s.workers.length main ≤
          mainStepsLeft p s.workers.length s.main + 2 := by
        subst hmain
        split_ifs with hready
        · rw [hready.2]
          exact le_rfl
        · exact Nat.le_add_right _ _
      simp only [workerStepsLeft, List.length_set] at hsum ⊢
      omega

/-- The pipelines and the steps that are left. -/
def rank (prog : PipelineProgram σ τ) (s : PoolState σ τ) : ℕ ×ₗ ℕ :=
  toLex (prog.pipelines.length - s.stage,
    (prog.pipelines[s.stage]?).elim 0 fun p => PipelineProgram.stepsLeft p s)

/-- Every step but a spurious wake-up lowers the rank. -/
theorem rank_lt {a : PoolAction} (hp : prog.pipelines[s.stage]? = some p)
    (hstep : prog.step P s a = some s') (ha : a.isSpurious = false) :
    rank prog s' < rank prog s := by
  have hcases := step_cases hp hstep
  rw [ha] at hcases
  unfold rank
  rw [Prod.Lex.toLex_lt_toLex]
  rcases hcases.stage with hstage | ⟨hstage, -, hnext⟩
  · right
    rw [hstage, hp]
    exact ⟨rfl, hcases.stepsLeft hstage⟩
  · left
    have hlt := (List.getElem?_eq_some_iff.mp hp).1
    rw [hstage]
    dsimp only
    omega

/-- **`Collect` comes to an end**: an infinite run wakes up spuriously again and again. -/
theorem collect_ends (hne : prog.pipelines ≠ []) {poolSize : ℕ} {states : ℕ → PoolState σ τ}
    {actions : ℕ → PoolAction} (hinit : states 0 = prog.init poolSize)
    (hsteps : ∀ i, prog.step P (states i) (actions i) = some (states (i + 1))) (n : ℕ) :
    ∃ i, n ≤ i ∧ (actions i).isSpurious = true := by
  have hstart : ∃ q, Refines P prog poolSize q (states 0) := by
    rw [hinit]
    exact collect_refines hne (run_nil _)
  have hfall : ∀ (s : PoolState σ τ) (a : PoolAction) (s' : PoolState σ τ),
      (∃ q, Refines P prog poolSize q s) → prog.step P s a = some s' → ¬ a.isSpurious = true →
        rank prog s' < rank prog s := by
    rintro s a s' ⟨q, h⟩ hstep hexempt
    exact rank_lt h.stage hstep (by simpa using hexempt)
  exact exempt_again wellFounded_lt (rank prog) (fun a => a.isSpurious = true)
    (fun s a s' ⟨q, h⟩ hstep => h.step hstep) hfall hstart hsteps n

/-- The worker finds the queue empty, goes to sleep and wakes up, for ever. -/
theorem collect_ends_spurious :
    let round : List PoolAction := [.worker 0, .worker 0, .spurious (.worker 0)]
    ∃ (states : ℕ → PoolState ScanOperator (List RecordBatch)) (actions : ℕ → PoolAction),
      states 0 = exampleProgram.init 1 ∧ (∀ i, actions i = round.getD (i % 3) .main) ∧
      (∀ i, exampleProgram.step Platform.integral (states i) (actions i) =
        some (states (i + 1))) ∧
      ∀ n, ∃ i, n ≤ i ∧ (actions i).isSpurious = true := by
  intro round
  let s₀ := exampleProgram.init 1
  let s₁ := { s₀ with queueMutex := some (.worker 0), workers := [.checkQueue] }
  let s₂ := { s₀ with workers := [.asleep] }
  let states : ℕ → PoolState ScanOperator (List RecordBatch) := fun i =>
    [s₀, s₁, s₂].getD (i % 3) s₀
  let actions : ℕ → PoolAction := fun i => round.getD (i % 3) .main
  have hsteps : ∀ i, exampleProgram.step Platform.integral (states i) (actions i) =
      some (states (i + 1)) := by
    intro i
    have hmod : (i + 1) % 3 = (i % 3 + 1) % 3 := by omega
    simp only [states, actions, hmod]
    have hlt : i % 3 < 3 := Nat.mod_lt _ (by decide)
    generalize i % 3 = k at hlt
    match k, hlt with
    | 0, _ => rfl
    | 1, _ => rfl
    | 2, _ => rfl
  exact ⟨states, actions, rfl, fun _ => rfl, hsteps,
    collect_ends (by decide) (show states 0 = exampleProgram.init 1 from rfl) hsteps⟩

/-! ## Notifications -/

/-- **No notification is lost**, in any state of any run: `queue_mutex_` and `wait_mutex` are held
by the thread between the acquisition and the release, and by no other; while a worker sleeps, each
task of the queue has a worker that is on its way to the queue, or a notification that is still to
come; and the main thread sleeps only while a task has still to be counted. -/
theorem no_lost_notification (hne : prog.pipelines ≠ []) {poolSize : ℕ} {as : List PoolAction}
    (hrun : Found.run (prog.step P) (prog.init poolSize) as = some s) :
    (∀ o, s.queueMutex = some o ↔ s.At MainPoint.holdsQueue WorkerPoint.holdsQueue o) ∧
      (∀ o, s.waitMutex = some o ↔ s.At MainPoint.holdsWait WorkerPoint.holdsWait o) ∧
      (.asleep ∈ s.workers → s.tasks.length ≤ s.coming + s.main.pendingNotify) ∧
      (s.main = .asleep → ∃ q, prog.pipelines[s.stage]? = some q ∧
        s.shared.numTasksFinished < q.numThreads) := by
  obtain ⟨q, h⟩ := collect_refines hne hrun
  refine ⟨h.guarded.queue, h.guarded.wait, h.guarded.woken, ?_⟩
  intro hmain
  obtain ⟨source, as, -, hexec⟩ := h.run
  obtain ⟨hsched, -, -⟩ := Pipeline.scheduled_of_run hexec
  refine ⟨q, h.stage, lt_of_le_of_ne ?_ (h.guarded.latch hmain)⟩
  have hcounted := hsched.counted
  have hstarted := hsched.started_add_tasks
  have henqueued := hsched.enqueued
  show (s.toExec q).shared.numTasksFinished ≤ q.numThreads
  omega

/-- The worker sleeps, the task is in the queue, and the notification is still to come. -/
theorem no_lost_notification_pending :
    ∃ s, run (exampleProgram.step Platform.integral) (exampleProgram.init 1)
        (exampleFirst.take 4) = some s ∧ s.main = .notifyOne 0 ∧
      (.asleep ∈ s.workers → s.tasks.length ≤ s.coming + s.main.pendingNotify) := by
  have hrun : (run (exampleProgram.step Platform.integral) (exampleProgram.init 1)
      (exampleFirst.take 4)).map (fun s => s.main) = some (.notifyOne 0) := by decide
  obtain ⟨s, hs, hmain⟩ := Option.map_eq_some_iff.mp hrun
  exact ⟨s, hs, hmain, (no_lost_notification (by decide) hs).2.2.1⟩

end PipelineProgram

end ColumnarEngine
