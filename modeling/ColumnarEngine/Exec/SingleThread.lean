import ColumnarEngine.Exec.ThreadPoolRuns
import ColumnarEngine.Found.Loop

/-!
# The build without threads

Without `ENABLE_MULTITHREADING` there is no queue: `Enqueue` of `ThreadPool.h` runs the task at
once, and `wait` of the dummy condition variable in `Concurrency.h` asserts its predicate. `Execute`
is then a function. It is one of the runs of the machine with one pool thread, up to the call that
is undefined if there is one, and the assertion does not fail (`executeInline_run`); so what holds
of every schedule holds of this build. The loop of `Collect` over its pipelines is a function as
well (`executeFrom_run`).
-/

namespace ColumnarEngine

open Found PipelineProgram

namespace Pipeline

variable {σ τ : Type*} (P : Platform) (p : Pipeline σ τ)

/-- One turn of a task. -/
def taskTurn (threadId : ℕ) (place : Shared σ τ × TaskPoint) :
    Option (Turn (Shared σ τ × TaskPoint) (Shared σ τ)) :=
  (p.taskStep P place.1 threadId place.2).map fun (s, next) =>
    next.elim (.leave s) fun point => .again (s, point)

/-- The steps of a task from a point on, at most. -/
def taskBound (place : Shared σ τ × TaskPoint) : ℕ :=
  p.stepsLeft place.2 + p.stepsPerBatch * (p.source.pending place.1.source).length

/-- `Enqueue` runs the task of a `thread_id`. -/
def runTask (s : Shared σ τ) (threadId : ℕ) : Option (Shared σ τ) :=
  (turns (p.taskTurn P threadId) (p.taskBound (s, .getData) + 1) (s, .getData)).bind Turn.result

/-- The tasks of `Execute`, one after the other. -/
def runTasks (threadIds : List ℕ) (s : Shared σ τ) : Option (Shared σ τ) :=
  threadIds.foldlM (p.runTask P) s

/-- `Execute` without threads: the assertion of `wait`, then `Finalize`. -/
def executeInline (source : σ) (sink : τ) : Option τ :=
  (p.runTasks P (List.range p.numThreads) (freshShared source sink)).bind fun s =>
    if s.numTasksFinished = p.numThreads then p.sink.finalize s.sink else none

variable {P p}

/-! ## A task -/

/-- **A task** that runs on the one thread of the pool runs to its end, in as many turns as the
bound says, or up to a call that is undefined. -/
theorem taskTurn_run {threadId n : ℕ} {e : ExecState σ τ} {point : TaskPoint}
    (hthreads : e.threads = [.running threadId point])
    (hn : p.taskBound (e.shared, point) < n) :
    (turns (p.taskTurn P threadId) n (e.shared, point) = none ∧
      ∃ as e', run (p.step P) e as = some e' ∧ p.Undefined P e') ∨
    ∃ s, turns (p.taskTurn P threadId) n (e.shared, point) = some (.leave s) ∧
      ∃ as, run (p.step P) e as = some { e with shared := s, threads := [.waiting] } := by
  induction n generalizing e point with
  | zero => omega
  | succ n ih =>
      have hmem : .running threadId point ∈ e.threads := by simp [hthreads]
      rw [turns]
      cases htask : p.taskStep P e.shared threadId point with
      | none =>
          refine .inl ⟨by simp [taskTurn, htask], [], e, rfl, .inl ⟨threadId, point, hmem, htask⟩⟩
      | some result =>
          obtain ⟨s, next⟩ := result
          have hstep : p.step P e (.thread 0) = some
              { e with shared := s, threads := [next.elim .waiting (.running threadId)] } := by
            simp [Pipeline.step, threadStep, hthreads, htask]
          cases next with
          | none =>
              refine .inr ⟨s, by simp [taskTurn, htask], [.thread 0], ?_⟩
              exact run_cons.mpr ⟨_, hstep, rfl⟩
          | some point' =>
              have hlt : p.taskBound (s, point') < p.taskBound (e.shared, point) :=
                (taskStep_cases htask).stepsLeft
              have hturn : p.taskTurn P threadId (e.shared, point) =
                  some (.again (s, point')) := by simp [taskTurn, htask]
              rw [hturn, Option.bind_some, Turn.andThen_again]
              rcases ih (e := { e with shared := s, threads := [.running threadId point'] }) rfl
                (by dsimp only; omega) with
                ⟨hnone, as, e', hrun, hundefined⟩ | ⟨s', hleave, as, hrun⟩
              · exact .inl ⟨hnone, .thread 0 :: as, e', run_cons.mpr ⟨_, hstep, hrun⟩, hundefined⟩
              · exact .inr ⟨s', hleave, .thread 0 :: as, run_cons.mpr ⟨_, hstep, hrun⟩⟩

/-! ## The tasks in order -/

/-- The machine with one thread between two tasks. -/
def betweenTasks (s : Shared σ τ) (enqueued : ℕ) (started : List ℕ) : ExecState σ τ :=
  { shared := s, enqueued := enqueued, tasks := [], threads := [.waiting], finalizing := false,
    finalized := false, started := started }

/-- A task is enqueued, started and run. -/
theorem runTask_run (s : Shared σ τ) (started : List ℕ) {i : ℕ} (hi : i < p.numThreads) :
    (p.runTask P s i = none ∧ ∃ as e, run (p.step P) (betweenTasks s i started) as = some e ∧
      p.Undefined P e) ∨
    ∃ s', p.runTask P s i = some s' ∧ ∃ as, run (p.step P) (betweenTasks s i started) as =
      some (betweenTasks s' (i + 1) (started ++ [i])) := by
  let e : ExecState σ τ :=
    { betweenTasks s (i + 1) (started ++ [i]) with threads := [.running i .getData] }
  have hstart : ∀ as, run (p.step P) (betweenTasks s i started) (.enqueue :: .thread 0 :: as) =
      run (p.step P) e as := by
    intro as
    have henqueue : p.step P (betweenTasks s i started) .enqueue =
        some { betweenTasks s (i + 1) started with tasks := [i] } := by
      simp [Pipeline.step, betweenTasks, hi]
    have hthread : p.step P { betweenTasks s (i + 1) started with tasks := [i] } (.thread 0) =
        some e := by
      simp [Pipeline.step, threadStep, betweenTasks, e]
    simp [run, henqueue, hthread]
  unfold runTask
  rcases taskTurn_run (P := P) (e := e) rfl (Nat.lt_succ_self _) with
    ⟨hnone, as, e', hrun, hundefined⟩ | ⟨s', hleave, as, hrun⟩
  · refine .inl ⟨?_, .enqueue :: .thread 0 :: as, e', ?_, hundefined⟩
    · rw [show (s, TaskPoint.getData) = (e.shared, .getData) from rfl, hnone]
      rfl
    · rw [hstart, hrun]
  · refine .inr ⟨s', ?_, .enqueue :: .thread 0 :: as, ?_⟩
    · rw [show (s, TaskPoint.getData) = (e.shared, .getData) from rfl, hleave]
      rfl
    · rw [hstart, hrun]
      rfl

/-- **All tasks** are run in order, or up to a call that is undefined. -/
theorem runTasks_run (s : Shared σ τ) (started : List ℕ) {i k : ℕ} (hk : i + k = p.numThreads) :
    (p.runTasks P (List.range' i k) s = none ∧
      ∃ as e, run (p.step P) (betweenTasks s i started) as = some e ∧ p.Undefined P e) ∨
    ∃ s' started', p.runTasks P (List.range' i k) s = some s' ∧
      ∃ as, run (p.step P) (betweenTasks s i started) as =
        some (betweenTasks s' p.numThreads started') := by
  induction k generalizing s i started with
  | zero => exact .inr ⟨s, started, rfl, [], by rw [← hk]; rfl⟩
  | succ k ih =>
      rw [List.range'_succ, runTasks, List.foldlM_cons]
      rcases runTask_run (P := P) s started (show i < p.numThreads by omega) with
        ⟨hnone, hundefined⟩ | ⟨s₁, hs₁, as, hrun⟩
      · rw [hnone]
        exact .inl ⟨rfl, hundefined⟩
      · rw [hs₁]
        rcases ih s₁ (started ++ [i]) (show i + 1 + k = p.numThreads by omega) with
          ⟨hnone, as', e, hrun', hundefined⟩ | ⟨s', started', hs', as', hrun'⟩
        · exact .inl ⟨hnone, as ++ as', e, run_append.mpr ⟨_, hrun, hrun'⟩, hundefined⟩
        · exact .inr ⟨s', started', hs', as ++ as', run_append.mpr ⟨_, hrun, hrun'⟩⟩

/-- **The build without threads is one of the schedules**, and its assertion does not fail: either
the tasks run to their end, all of them have been counted when `wait` is called, and `Execute`
returns what a run of the machine with one pool thread returns; or a call is undefined, at the end
of such a run. -/
theorem executeInline_run (source : σ) (sink : τ) :
    (∀ s, p.runTasks P (List.range p.numThreads) (freshShared source sink) = some s →
      s.numTasksFinished = p.numThreads) ∧
    ((∃ as e, run (p.step P) (init source sink 1) as = some e ∧ p.Returned sink e ∧
        p.executeInline P source sink = some e.shared.sink) ∨
      ∃ as e, run (p.step P) (init source sink 1) as = some e ∧ p.Undefined P e ∧
        p.executeInline P source sink = none) := by
  have hinit : betweenTasks (freshShared source sink) 0 [] = init source sink 1 := rfl
  rcases runTasks_run (P := P) (freshShared source sink) []
    (show 0 + p.numThreads = p.numThreads by omega) with
      ⟨hnone, as, e, hrun, hundefined⟩ | ⟨s, started, hs, as, hrun⟩
  · rw [← List.range_eq_range'] at hnone
    refine ⟨by simp [hnone], .inr ⟨as, e, hinit ▸ hrun, hundefined, ?_⟩⟩
    rw [executeInline, hnone, Option.bind_none]
  · rw [← List.range_eq_range'] at hs
    rw [hinit] at hrun
    obtain ⟨hsched, hcalled, -⟩ := scheduled_of_run hrun
    have hcount : s.numTasksFinished = p.numThreads := by
      have hcounted := hsched.counted
      have hstarted := hsched.started_add_tasks
      simp only [betweenTasks, List.map_cons, List.map_nil, isRunning, List.sum_singleton,
        List.length_nil, add_zero] at hcounted hstarted
      omega
    refine ⟨fun s' hs' => by rw [← Option.some.inj (hs.symm.trans hs'), hcount], ?_⟩
    have hwake : p.step P (betweenTasks s p.numThreads started) .wakeUp =
        some { betweenTasks s p.numThreads started with finalizing := true } := by
      simp [Pipeline.step, betweenTasks, hcount]
    have hrun' := run_concat.mpr ⟨_, hrun, hwake⟩
    rw [executeInline, hs, Option.bind_some, if_pos hcount]
    cases hsink : p.sink.finalize s.sink with
    | none => exact .inr ⟨_, _, hrun', .inr ⟨rfl, rfl, hsink⟩, rfl⟩
    | some final =>
        have hfinalize : p.step P { betweenTasks s p.numThreads started with finalizing := true }
            .finalize = some { betweenTasks { s with sink := final } p.numThreads started with
              finalizing := true, finalized := true } := by
          simp [Pipeline.step, betweenTasks, hsink]
        have hreturned := run_concat.mpr ⟨_, hrun', hfinalize⟩
        obtain ⟨hsched', hcalled', -⟩ := scheduled_of_run hreturned
        exact .inl ⟨_, _, hreturned, hsched'.returns hcalled' rfl, rfl⟩

end Pipeline

/-! ## `Collect` -/

namespace PipelineProgram

variable {σ τ : Type*} (P : Platform) (prog : PipelineProgram σ τ)

/-- The loop of `Collect` without threads, from a stage on; `object` is the sink of the stage
before. -/
def executeFrom (stage : ℕ) (source : σ) (object : τ) : List (Pipeline σ τ) → Option τ
  | [] => some object
  | p :: ps => (p.executeInline P source (prog.sink stage)).bind fun final =>
      executeFrom (stage + 1) (prog.source stage final) final ps

variable {P prog}

/-- **`Collect` without threads** executes the pipelines as the machine with one pool thread does:
up to the end of the last one, whose sink it returns, or up to a call that is undefined. -/
theorem executeFrom_run {stage : ℕ} {source : σ} {object : τ} {ps : List (Pipeline σ τ)}
    (hps : prog.pipelines.drop stage = ps) (hne : ps ≠ [])
    (h : Executed P prog 1 stage source) :
    ∃ k q source' as e, Executed P prog 1 k source' ∧ prog.pipelines[k]? = some q ∧
      run (q.step P) (Pipeline.init source' (prog.sink k) 1) as = some e ∧
      (k + 1 = prog.pipelines.length ∧ q.Returned (prog.sink k) e ∧
          executeFrom P prog stage source object ps = some e.shared.sink ∨
        q.Undefined P e ∧ executeFrom P prog stage source object ps = none) := by
  induction ps generalizing stage source object with
  | nil => exact absurd rfl hne
  | cons p ps ih =>
      have hp : prog.pipelines[stage]? = some p := by
        rw [← List.head?_drop, hps, List.head?_cons]
      have hdrop : prog.pipelines.drop (stage + 1) = ps := by
        rw [← List.tail_drop, hps, List.tail_cons]
      rcases (Pipeline.executeInline_run (P := P) (p := p) source (prog.sink stage)).2 with
        ⟨as, e, hrun, hreturned, hresult⟩ | ⟨as, e, hrun, hundefined, hresult⟩
      · rw [executeFrom, hresult, Option.bind_some]
        by_cases hlast : ps = []
        · have hlength : stage + 1 = prog.pipelines.length := by
            have hlt := (List.getElem?_eq_some_iff.mp hp).1
            have hle := List.drop_eq_nil_iff.mp (hlast ▸ hdrop)
            omega
          rw [hlast, executeFrom]
          exact ⟨stage, p, source, as, e, h, hp, hrun, .inl ⟨hlength, hreturned, rfl⟩⟩
        · exact ih hdrop hlast (.next h hp hrun hreturned.finalized)
      · rw [executeFrom, hresult, Option.bind_none]
        exact ⟨stage, p, source, as, e, h, hp, hrun, .inr ⟨hundefined, rfl⟩⟩

/-- The two pipelines of the example. -/
theorem executeFrom_run_two_pipelines :
    ∃ q source as e, Executed Platform.integral exampleProgram 1 1 source ∧
      exampleProgram.pipelines[1]? = some q ∧
      run (q.step Platform.integral) (Pipeline.init source [] 1) as = some e ∧
      q.Returned [] e ∧
      exampleProgram.executeFrom Platform.integral 0 Pipeline.exampleScan []
        exampleProgram.pipelines = some e.shared.sink := by
  have hresult : (exampleProgram.executeFrom Platform.integral 0 Pipeline.exampleScan []
      exampleProgram.pipelines).isSome = true := by decide
  have hfirst : Executed Platform.integral exampleProgram 1 0 Pipeline.exampleScan := .first
  obtain ⟨k, q, source, as, e, hexecuted, hq, hrun, hend⟩ :=
    @executeFrom_run _ _ _ _ _ _ [] _ List.drop_zero (by decide) hfirst
  rcases hend with ⟨hlast, hreturned, hsink⟩ | ⟨-, hnone⟩
  · obtain rfl : k = 1 := Nat.succ.inj hlast
    exact ⟨q, source, as, e, hexecuted, hq, hrun, hreturned, hsink⟩
  · rw [hnone] at hresult
    cases hresult

end PipelineProgram

end ColumnarEngine
