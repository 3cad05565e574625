import ColumnarEngine.Exec.PipelineChain
import ColumnarEngine.Exec.PipelineOnce

/-!
# `Execute` returns

Every step of `Execute` lowers the number of steps that are left (`step_stepsLeft`), so no run is
longer than a bound on the tasks and the batches, whatever the schedule (`run_length_le`). A run
gets stuck only where an operator does: if the operators are defined on what reaches them
(`Contract`), the task queue and the counter always let somebody go on until `Finalize` has been
called (`execute_returns`).
-/

namespace ColumnarEngine

open Found

namespace Pipeline

variable {σ τ : Type*} {P : Platform} {p : Pipeline σ τ}

/-! ## The steps that are left -/

/-- The steps that a task makes from a point on without taking another batch, at most. -/
def stepsLeft (p : Pipeline σ τ) : TaskPoint → ℕ
  | .getData => 2
  | .execute i _ => 3 * (p.transforms.length - (i + 1)) + 6
  | .storeDone i _ => 3 * (p.transforms.length - (i + 1)) + 5
  | .isPipelineDone i _ => 3 * (p.transforms.length - (i + 1)) + 4
  | .sink _ _ => 3
  | .countFinished => 1

/-- The steps that a pool thread makes for the task and the batch it has. -/
def threadStepsLeft (p : Pipeline σ τ) : PoolThread → ℕ
  | .waiting => 0
  | .running _ point => p.stepsLeft point

/-- The steps for one batch of the source: `GetData`, three for each transform and `Sink`. -/
def stepsPerBatch (p : Pipeline σ τ) : ℕ := 3 * p.transforms.length + 2

/-- The steps of a state until `Execute` has returned, at most. -/
def totalStepsLeft (p : Pipeline σ τ) (s : ExecState σ τ) : ℕ :=
  4 * (p.numThreads - s.enqueued) + 3 * s.tasks.length + (s.threads.map p.threadStepsLeft).sum +
    p.stepsPerBatch * (p.source.pending s.shared.source).length +
    ((if s.finalizing then 0 else 1) + if s.finalized then 0 else 1)

theorem stepsLeft_afterTransforms (batch : RecordBatch) (stop : Bool) :
    p.stepsLeft (afterTransforms batch stop) ≤ 3 := by
  unfold afterTransforms
  split_ifs <;> simp [stepsLeft]

theorem stepsLeft_enterTransform (i : ℕ) (batch : RecordBatch) :
    p.stepsLeft (p.enterTransform i batch) ≤ 3 * (p.transforms.length - i) + 3 := by
  unfold enterTransform
  split_ifs with hi
  · dsimp only [stepsLeft]
    omega
  · have hlast := stepsLeft_afterTransforms (p := p) batch false
    omega

theorem stepsLeft_afterExecute (i : ℕ) (result : Option RecordBatch) :
    p.stepsLeft (afterExecute i result) ≤ 3 * (p.transforms.length - (i + 1)) + 4 := by
  cases result with
  | none => simp [afterExecute, stepsLeft]
  | some batch =>
      dsimp only [afterExecute]
      split_ifs
      · simp [stepsLeft]
      · exact le_rfl

/-- A step of a task lowers its own steps and those for the batches of the source. -/
theorem TaskStep.stepsLeft {s s' : Shared σ τ} {threadId : ℕ} {point : TaskPoint}
    {next : Option TaskPoint} (h : p.TaskStep P s threadId point s' next) :
    next.elim 0 p.stepsLeft + p.stepsPerBatch * (p.source.pending s'.source).length <
      p.stepsLeft point + p.stepsPerBatch * (p.source.pending s.source).length := by
  cases h with
  | @drained source h =>
      rw [p.source.pending_eq h, Option.toList_none, List.nil_append]
      exact Nat.add_lt_add_right (show 1 < 2 by decide) _
  | @took source batch h =>
      have henter := stepsLeft_enterTransform (p := p) 0 batch
      rw [p.source.pending_eq h, Option.toList_some, List.singleton_append, List.length_cons,
        Nat.mul_succ, ← add_assoc, add_right_comm]
      apply Nat.add_lt_add_right
      show p.stepsLeft (p.enterTransform 0 batch) < 2 + (3 * p.transforms.length + 2)
      omega
  | @executed i batch t result limits ht hresult =>
      have hafter := stepsLeft_afterExecute (p := p) i result
      apply Nat.add_lt_add_right
      show p.stepsLeft (afterExecute i result) < 3 * (p.transforms.length - (i + 1)) + 6
      omega
  | @reached i n batch result limits ht hresult =>
      apply Nat.add_lt_add_right
      show 3 * (p.transforms.length - (i + 1)) + 5 < 3 * (p.transforms.length - (i + 1)) + 6
      omega
  | @storedDone i result limits =>
      have hafter := stepsLeft_afterExecute (p := p) i result
      apply Nat.add_lt_add_right
      show p.stepsLeft (afterExecute i result) < 3 * (p.transforms.length - (i + 1)) + 5
      omega
  | @stopped i batch h =>
      have hafter := stepsLeft_afterTransforms (p := p) batch true
      apply Nat.add_lt_add_right
      show p.stepsLeft (afterTransforms batch true) < 3 * (p.transforms.length - (i + 1)) + 4
      omega
  | @continued i batch h =>
      have henter := stepsLeft_enterTransform (p := p) (i + 1) batch
      apply Nat.add_lt_add_right
      show p.stepsLeft (p.enterTransform (i + 1) batch) < 3 * (p.transforms.length - (i + 1)) + 4
      omega
  | @sank batch stop sink h =>
      apply Nat.add_lt_add_right
      show p.stepsLeft (if stop then .countFinished else .getData) < 3
      split_ifs <;> simp [Pipeline.stepsLeft]
  | counted => exact Nat.add_lt_add_right (show 0 < 1 by decide) _

/-- **Every step** of `Execute` lowers the steps that are left. -/
theorem step_stepsLeft {s s' : ExecState σ τ} {a : Action} (h : p.step P s a = some s') :
    p.totalStepsLeft s' < p.totalStepsLeft s := by
  unfold totalStepsLeft
  cases step_cases h with
  | enqueue hlt =>
      rw [List.length_append, List.length_singleton]
      dsimp only
      omega
  | wakeUp henq hfinished hmain =>
      rw [hmain, if_pos rfl, if_neg Bool.false_ne_true]
      dsimp only
      omega
  | finalize hmain honce hsink =>
      rw [honce, if_pos rfl, if_neg Bool.false_ne_true]
      dsimp only
      omega
  | @start w threadId tasks hw htasks =>
      have hsum := sum_map_set (b := .running threadId .getData) p.threadStepsLeft hw
      simp only [threadStepsLeft, stepsLeft, add_zero] at hsum
      rw [htasks, List.length_append, List.length_singleton]
      dsimp only
      omega
  | @task w threadId point shared next hw htask =>
      have hsum := sum_map_set (b := next.elim .waiting (.running threadId)) p.threadStepsLeft hw
      have hlt := htask.stepsLeft
      have hnext : p.threadStepsLeft (next.elim .waiting (.running threadId)) =
          next.elim 0 p.stepsLeft := by cases next <;> rfl
      rw [hnext] at hsum
      simp only [threadStepsLeft] at hsum
      dsimp only
      omega

/-- **`Execute` terminates**: under any schedule, and with any operators, a run has at most four
steps for each task, those of the transforms for each batch of the source, and two of the main
thread. -/
theorem run_length_le {source : σ} {sink : τ} {poolSize : ℕ} {as : List Action}
    {s : ExecState σ τ} (hrun : run (p.step P) (init source sink poolSize) as = some s) :
    as.length ≤ 4 * p.numThreads +
      (3 * p.transforms.length + 2) * (p.source.pending source).length + 2 := by
  have hlen := length_add_le_of_run (fun _ _ _ => step_stepsLeft) hrun
  have hinit : p.totalStepsLeft (init source sink poolSize) = 4 * p.numThreads +
      (3 * p.transforms.length + 2) * (p.source.pending source).length + 2 := by
    simp [totalStepsLeft, init, threadStepsLeft, stepsPerBatch]
  omega

/-! ## The tasks -/

/-- Every enqueued task is in the queue or has been started, and every started one runs or has been
counted; the main thread goes on when all have been counted. -/
structure Scheduled (p : Pipeline σ τ) (s : ExecState σ τ) : Prop where
  queued : (s.started ++ s.tasks).Perm (List.range s.enqueued)
  counted : s.shared.numTasksFinished + (s.threads.map isRunning).sum = s.started.length
  runs : ∀ threadId point, .running threadId point ∈ s.threads → threadId ∈ s.started
  enqueued : s.enqueued ≤ p.numThreads
  waited : s.finalizing = true →
    s.enqueued = p.numThreads ∧ s.shared.numTasksFinished = p.numThreads
  returned : s.finalized = true → s.finalizing = true

namespace Scheduled

variable {s s' : ExecState σ τ}

/-- `Execute` starts with no task. -/
theorem init (source : σ) (sink : τ) (poolSize : ℕ) :
    Scheduled p (init source sink poolSize) where
  queued := .refl _
  counted := by simp [Pipeline.init, isRunning]
  runs := by simp [Pipeline.init]
  enqueued := Nat.zero_le _
  waited := by simp [Pipeline.init]
  returned := by simp [Pipeline.init]

/-- At most `num_threads` tasks are started. -/
theorem started_add_tasks (h : Scheduled p s) : s.started.length + s.tasks.length = s.enqueued := by
  rw [← List.length_append, h.queued.length_eq, List.length_range]

/-- While a task runs, the main thread waits. -/
theorem unfinished (h : Scheduled p s) {w threadId : ℕ} {point : TaskPoint}
    (hw : s.threads[w]? = some (.running threadId point)) :
    s.shared.numTasksFinished < p.numThreads := by
  have hset := sum_map_set (b := .waiting) isRunning hw
  have hcounted := h.counted
  have hstarted := h.started_add_tasks
  have henqueued := h.enqueued
  simp only [isRunning] at hset
  omega

/-- A running task has the `thread_id` of one of the `num_threads`. -/
theorem threadId_lt (h : Scheduled p s) {threadId : ℕ} {point : TaskPoint}
    (hmem : .running threadId point ∈ s.threads) : threadId < p.numThreads := by
  have hmem' := List.mem_append_left s.tasks (h.runs threadId point hmem)
  rw [h.queued.mem_iff, List.mem_range] at hmem'
  exact hmem'.trans_le h.enqueued

/-- Starting the last task of the queue. -/
theorem start (h : Scheduled p s) {w threadId : ℕ} {tasks : List ℕ}
    (hw : s.threads[w]? = some .waiting) (htasks : s.tasks = tasks ++ [threadId]) :
    Scheduled p { s with
      tasks := tasks
      threads := s.threads.set w (.running threadId .getData)
      started := s.started ++ [threadId] } := by
  refine { h with queued := ?_, counted := ?_, runs := ?_ }
  · rw [List.append_assoc]
    apply (List.Perm.append_left _ List.perm_append_comm).trans
    exact htasks ▸ h.queued
  · have hcounted := h.counted
    have hset := sum_map_set (b := .running threadId .getData) isRunning hw
    simp only [isRunning] at hset
    dsimp only
    rw [List.length_append, List.length_singleton]
    omega
  · intro t point hmem
    rcases running_of_mem_start hmem with hmem | ⟨rfl, -⟩
    · exact List.mem_append_left _ (h.runs t point hmem)
    · exact List.mem_append_right _ List.mem_cons_self

/-- A task that steps goes on, or is counted. -/
theorem task (h : Scheduled p s) {w threadId : ℕ} {point : TaskPoint} {shared : Shared σ τ}
    {next : Option TaskPoint} (hw : s.threads[w]? = some (.running threadId point))
    (hcount : shared.numTasksFinished = s.shared.numTasksFinished + next.elim 1 fun _ => 0) :
    Scheduled p { s with
      shared := shared
      threads := s.threads.set w (next.elim .waiting (.running threadId)) } := by
  refine { h with counted := ?_, runs := ?_, waited := ?_ }
  · have hcounted := h.counted
    have hset := sum_map_set (b := next.elim .waiting (.running threadId)) isRunning hw
    rw [hcount]
    cases next <;> simp only [Option.elim, isRunning] at hset ⊢ <;> omega
  · intro t point' hmem
    rcases running_of_mem_set hmem with hmem | ⟨rfl, -⟩
    · exact h.runs t point' hmem
    · exact h.runs t point (List.mem_of_getElem? hw)
  · intro hmain
    exact absurd (h.waited hmain).2 (h.unfinished hw).ne

end Scheduled

/-- Only the last step of a task counts it. -/
theorem TaskStep.numTasksFinished {s s' : Shared σ τ} {threadId : ℕ} {point : TaskPoint}
    {next : Option TaskPoint} (h : p.TaskStep P s threadId point s' next) :
    s'.numTasksFinished = s.numTasksFinished + next.elim 1 fun _ => 0 := by
  cases h <;> rfl

/-- **Every step** keeps the books of the tasks. -/
theorem Scheduled.step {s s' : ExecState σ τ} {a : Action} (h : Scheduled p s)
    (hstep : p.step P s a = some s') : Scheduled p s' := by
  cases step_cases hstep with
  | enqueue hlt =>
      refine { h with queued := ?_, enqueued := hlt, waited := ?_ }
      · show (s.started ++ (s.tasks ++ [s.enqueued])).Perm _
        rw [← List.append_assoc, List.range_succ]
        exact h.queued.append_right _
      · intro hmain
        exact absurd (h.waited hmain).1 hlt.ne
  | wakeUp henq hfinished _ =>
      exact { h with waited := fun _ => ⟨henq, hfinished⟩, returned := fun _ => rfl }
  | finalize hmain _ _ => exact { h with returned := fun _ => hmain }
  | start hw htasks => exact h.start hw htasks
  | task hw htask => exact h.task hw htask.numTasksFinished

end Pipeline

/-! ## The calls of the sink -/

/-- A sequence of `Sink` calls. -/
def SinkOperator.sinkAll {τ : Type*} (k : SinkOperator τ) (s : τ)
    (calls : List (RecordBatch × ℕ)) : Option τ :=
  calls.foldlM (fun s c => k.sink s c.1 c.2) s

/-- One more call. -/
theorem SinkOperator.sinkAll_concat {τ : Type*} {k : SinkOperator τ} {s s' : τ}
    {calls : List (RecordBatch × ℕ)} (h : k.sinkAll s calls = some s') (b : RecordBatch)
    (threadId : ℕ) : k.sinkAll s (calls ++ [(b, threadId)]) = k.sink s' b threadId := by
  unfold sinkAll at h ⊢
  rw [List.foldlM_append, h]
  exact bind_pure (k.sink s' b threadId)

namespace Pipeline

variable {σ τ : Type*} {P : Platform} {p : Pipeline σ τ}

/-- The sink has got the batches sunk, and then `Finalize` if `Execute` has returned. -/
def SinkCalled (p : Pipeline σ τ) (sink : τ) (s : ExecState σ τ) : Prop :=
  ∃ called, p.sink.sinkAll sink s.shared.sunk = some called ∧
    if s.finalized then p.sink.finalize called = some s.shared.sink else called = s.shared.sink

/-- Only `Sink` changes the sink. -/
theorem TaskStep.sinkAll {s s' : Shared σ τ} {threadId : ℕ} {point : TaskPoint}
    {next : Option TaskPoint} (h : p.TaskStep P s threadId point s' next) {sink : τ}
    (hsink : p.sink.sinkAll sink s.sunk = some s.sink) :
    p.sink.sinkAll sink s'.sunk = some s'.sink := by
  cases h with
  | sank h => exact (SinkOperator.sinkAll_concat hsink _ _).trans h
  | drained _ | took _ | executed _ _ | reached _ _ | storedDone | stopped _ | continued _ |
    counted => exact hsink

/-- **Every step** keeps the record of the calls: after `Finalize` no task is left that could call
`Sink`. -/
theorem SinkCalled.step {sink : τ} {s s' : ExecState σ τ} {a : Action} (h : Scheduled p s)
    (hsink : p.SinkCalled sink s) (hstep : p.step P s a = some s') : p.SinkCalled sink s' := by
  obtain ⟨called, hcalled, hstate⟩ := hsink
  cases step_cases hstep with
  | enqueue _ | wakeUp _ _ _ | start _ _ => exact ⟨called, hcalled, hstate⟩
  | finalize _ honce hfinal =>
      rw [honce, if_neg Bool.false_ne_true] at hstate
      subst hstate
      exact ⟨_, hcalled, hfinal⟩
  | task hw htask =>
      have hrunning : s.finalized = false := by
        by_contra hreturned
        rw [Bool.not_eq_false] at hreturned
        exact (h.unfinished hw).ne (h.waited (h.returned hreturned)).2
      rw [hrunning, if_neg Bool.false_ne_true] at hstate
      subst hstate
      refine ⟨_, htask.sinkAll hcalled, ?_⟩
      show if s.finalized then _ else _
      rw [hrunning, if_neg Bool.false_ne_true]

/-! ## Nobody waits for ever -/

/-- A call that somebody is about to make is undefined. -/
def Undefined (P : Platform) (p : Pipeline σ τ) (s : ExecState σ τ) : Prop :=
  (∃ threadId point, .running threadId point ∈ s.threads ∧
    p.taskStep P s.shared threadId point = none) ∨
  s.finalizing = true ∧ s.finalized = false ∧ p.sink.finalize s.shared.sink = none

/-- **Progress**: with a pool thread, `Execute` has returned, somebody can go on, or a call of an
operator is undefined. -/
theorem Scheduled.progress {s : ExecState σ τ} (h : Scheduled p s) (hpool : s.threads ≠ []) :
    s.finalized = true ∨ (∃ a s', p.step P s a = some s') ∨ p.Undefined P s := by
  by_cases hbusy : ∃ threadId point, .running threadId point ∈ s.threads
  · -- a running task can step unless its call is undefined
    obtain ⟨threadId, point, hmem⟩ := hbusy
    obtain ⟨w, hw⟩ := List.getElem?_of_mem hmem
    cases htask : p.taskStep P s.shared threadId point with
    | none => exact .inr (.inr (.inl ⟨threadId, point, hmem, htask⟩))
    | some next =>
        have hstep : (p.step P s (.thread w)).isSome := by
          simp [Pipeline.step, threadStep, hw, htask]
        exact .inr (.inl ⟨.thread w, Option.isSome_iff_exists.mp hstep⟩)
  · have hidle : ∀ thread ∈ s.threads, thread = .waiting := by
      intro thread hmem
      cases thread with
      | waiting => rfl
      | running threadId point => exact absurd ⟨threadId, point, hmem⟩ hbusy
    obtain ⟨thread, hfirst⟩ := List.exists_mem_of_ne_nil _ hpool
    obtain ⟨w, hw⟩ := List.getElem?_of_mem hfirst
    obtain rfl := hidle thread hfirst
    have hrunning : (s.threads.map isRunning).sum = 0 := by
      apply List.sum_eq_zero
      intro n hn
      obtain ⟨thread, hmem, rfl⟩ := List.mem_map.mp hn
      rw [hidle thread hmem]
      rfl
    have hcounted := h.counted
    have hstarted := h.started_add_tasks
    cases hlast : s.tasks.getLast? with
    | some threadId =>
        -- a waiting thread takes a task
        have hstep : (p.step P s (.thread w)).isSome := by
          simp [Pipeline.step, threadStep, hw, hlast]
        exact .inr (.inl ⟨.thread w, Option.isSome_iff_exists.mp hstep⟩)
    | none =>
        rw [List.getLast?_eq_none_iff.mp hlast, List.length_nil] at hstarted
        by_cases henqueue : s.enqueued < p.numThreads
        · exact .inr (.inl ⟨.enqueue, _, if_pos henqueue⟩)
        · have henqueued := h.enqueued
          by_cases hmain : s.finalizing = true
          · by_cases hreturned : s.finalized = true
            · exact .inl hreturned
            · rw [Bool.not_eq_true] at hreturned
              cases hfinal : p.sink.finalize s.shared.sink with
              | none => exact .inr (.inr (.inr ⟨hmain, hreturned, hfinal⟩))
              | some sink =>
                  have hstep : (p.step P s .finalize).isSome := by
                    rw [Pipeline.step, if_pos ⟨hmain, hreturned⟩, hfinal, Option.map_some]
                    rfl
                  exact .inr (.inl ⟨.finalize, Option.isSome_iff_exists.mp hstep⟩)
          · rw [Bool.not_eq_true] at hmain
            -- all tasks have been counted
            exact .inr (.inl ⟨.wakeUp, _, if_pos ⟨by omega, by omega, hmain⟩⟩)

/-- `Execute` has returned: each of the `num_threads` tasks has been run and counted, no thread runs
one, and the sink has got every `Sink` call and then `Finalize`. -/
structure Returned (p : Pipeline σ τ) (sink : τ) (s : ExecState σ τ) : Prop where
  finalized : s.finalized = true
  tasks : s.started.Perm (List.range p.numThreads)
  counted : s.shared.numTasksFinished = p.numThreads
  idle : ∀ thread ∈ s.threads, thread = .waiting
  sink : ∃ called, p.sink.sinkAll sink s.shared.sunk = some called ∧
    p.sink.finalize called = some s.shared.sink

/-- A finalized state is one in which `Execute` has returned. -/
theorem Scheduled.returns {sink : τ} {s : ExecState σ τ} (h : Scheduled p s)
    (hsink : p.SinkCalled sink s) (hfinal : s.finalized = true) : p.Returned sink s := by
  obtain ⟨henq, hfinished⟩ := h.waited (h.returned hfinal)
  have hstarted := h.started_add_tasks
  have hcounted := h.counted
  have hnil : s.tasks = [] := List.length_eq_zero_iff.mp (by omega)
  have htasks := h.queued
  rw [hnil, List.append_nil, henq] at htasks
  obtain ⟨called, hcalled, hstate⟩ := hsink
  rw [hfinal, if_pos rfl] at hstate
  refine ⟨hfinal, htasks, hfinished, ?_, called, hcalled, hstate⟩
  intro thread hmem
  cases thread with
  | waiting => rfl
  | running threadId point =>
      obtain ⟨w, hw⟩ := List.getElem?_of_mem hmem
      exact absurd hfinished (h.unfinished hw).ne

/-- Nothing happens after `Execute` has returned; in particular `Finalize` is called once. -/
theorem Returned.stuck {sink : τ} {s : ExecState σ τ} (hreturned : p.Returned sink s)
    (h : Scheduled p s) (a : Action) : p.step P s a = none := by
  have hmain := h.returned hreturned.finalized
  have henq := (h.waited hmain).1
  have hstarted := h.started_add_tasks
  rw [hreturned.tasks.length_eq, List.length_range] at hstarted
  have hnil : s.tasks = [] := List.length_eq_zero_iff.mp (by omega)
  cases a with
  | enqueue => exact if_neg (by omega)
  | wakeUp => exact if_neg (by simp [hmain])
  | finalize => exact if_neg (by simp [hreturned.finalized])
  | thread w =>
      cases hw : s.threads[w]? with
      | none => simp [Pipeline.step, threadStep, hw]
      | some thread =>
          obtain rfl := hreturned.idle thread (List.mem_of_getElem? hw)
          simp [Pipeline.step, threadStep, hw, hnil]

/-- The books of the tasks and of the sink are right in every state of a run. -/
theorem scheduled_of_run {source : σ} {sink : τ} {poolSize : ℕ} {as : List Action}
    {s : ExecState σ τ} (hrun : run (p.step P) (init source sink poolSize) as = some s) :
    Scheduled p s ∧ p.SinkCalled sink s ∧ s.threads.length = poolSize := by
  refine run_invariant (I := fun s : ExecState σ τ => Scheduled p s ∧ p.SinkCalled sink s ∧
    s.threads.length = poolSize) ?_ ⟨.init source sink poolSize, ⟨sink, rfl, rfl⟩, ?_⟩ hrun
  · rintro s a s' ⟨hsched, hsink, hlen⟩ hstep
    refine ⟨hsched.step hstep, hsink.step hsched hstep, ?_⟩
    cases step_cases hstep with
    | enqueue _ | wakeUp _ _ _ | finalize _ _ _ => exact hlen
    | start _ _ | task _ _ => exact List.length_set.trans hlen
  · exact List.length_replicate

/-- **`Execute` returns, under any schedule.** No run is longer than the bound, and a run that
cannot go on has returned, or an operator call that somebody is about to make is undefined: the
queue, the counter and the wait never leave a thread behind. -/
theorem execute_returns {source : σ} {sink : τ} {poolSize : ℕ} (hpool : 0 < poolSize)
    {as : List Action} {s : ExecState σ τ}
    (hrun : run (p.step P) (init source sink poolSize) as = some s)
    (hstuck : ∀ a, p.step P s a = none) : p.Returned sink s ∨ p.Undefined P s := by
  obtain ⟨hsched, hsink, hlen⟩ := scheduled_of_run hrun
  have hne : s.threads ≠ [] := List.ne_nil_of_length_pos (hlen ▸ hpool)
  rcases hsched.progress (P := P) hne with hfinal | ⟨a, s', hstep⟩ | hundefined
  · exact .inl (hsched.returns hsink hfinal)
  · rw [hstuck a] at hstep
    exact absurd hstep (by simp)
  · exact .inr hundefined

/-- One thread scans, filters and limits a table of one chunk, and the main thread finalizes: twelve
steps of at most fourteen. -/
theorem run_length_le_filter_limit :
    let p := examplePipeline [equalsFive, .limit 1]
    let steps := .enqueue :: List.replicate 9 (.thread 0) ++ [.wakeUp, .finalize]
    (run (p.step Platform.integral) (init exampleScan [] 1) steps).isSome ∧
      steps.length ≤ 4 * p.numThreads +
        (3 * p.transforms.length + 2) * (p.source.pending exampleScan).length + 2 := by
  intro p steps
  have hrun : (run (p.step Platform.integral) (init exampleScan [] 1) steps).isSome := by decide
  obtain ⟨s, hs⟩ := Option.isSome_iff_exists.mp hrun
  exact ⟨hrun, run_length_le hs⟩

/-- The same run has returned. -/
theorem execute_returns_filter_limit :
    let p := examplePipeline [equalsFive, .limit 1]
    let steps := .enqueue :: List.replicate 9 (.thread 0) ++ [.wakeUp, .finalize]
    ∃ s, run (p.step Platform.integral) (init exampleScan [] 1) steps = some s ∧
      (∀ a, p.step Platform.integral s a = none) ∧
      (p.Returned [] s ∨ p.Undefined Platform.integral s) := by
  intro p steps
  have hrun : (run (p.step Platform.integral) (init exampleScan [] 1) steps).map
      (fun s => s.finalized) = some true := by decide
  obtain ⟨s, hs, hfinal⟩ := Option.map_eq_some_iff.mp hrun
  obtain ⟨hsched, hsink, -⟩ := scheduled_of_run hs
  have hstuck := (hsched.returns hsink hfinal).stuck (P := Platform.integral) hsched
  exact ⟨s, hs, hstuck, execute_returns (by decide) hs hstuck⟩

end Pipeline

end ColumnarEngine
