import ColumnarEngine.Exec.ThreadPool

/-!
# Mutexes and notifications

What holds in every state of `Collect`, whatever the schedule and the wake-ups. A mutex is held by
the one thread that is between its acquisition and its release (`queue`, `wait`). No notification is
lost: while a worker sleeps, every task in the queue has a worker that is on its way to it or a
notification to come (`woken`), and the main thread does not sleep once all tasks have been counted
(`latch`). A worker leaves only after `stop_` has been set, and nobody sleeps after `notify_all`.
-/

namespace ColumnarEngine

open Found

namespace MainPoint

/-- In a critical section of `queue_mutex_`. -/
def holdsQueue : MainPoint → Prop
  | .pushTask _ | .setStop => True
  | _ => False

/-- In the critical section of `wait_mutex`. -/
def holdsWait : MainPoint → Prop
  | .checkWait => True
  | _ => False

/-- Behind the store of `stop_`. -/
def hasStopped : MainPoint → Prop
  | .notifyAll | .join _ | .destroyed => True
  | _ => False

/-- Behind `notify_all`. -/
def hasNotifiedAll : MainPoint → Prop
  | .join _ | .destroyed => True
  | _ => False

/-- Behind the `join` of a worker. -/
def hasJoined (w : ℕ) : MainPoint → Prop
  | .join w' => w < w'
  | .destroyed => True
  | _ => False

/-- Between the release of `queue_mutex_` and `notify_one`. -/
def pendingNotify : MainPoint → ℕ
  | .notifyOne _ => 1
  | _ => 0

end MainPoint

namespace WorkerPoint

/-- In the critical section of `queue_mutex_`. -/
def holdsQueue : WorkerPoint → Prop
  | .checkQueue => True
  | _ => False

/-- In the critical section of `wait_mutex`. -/
def holdsWait : WorkerPoint → Prop
  | .counting _ => True
  | _ => False

/-- On the way to the check of the queue, or about to make it. -/
def comes : WorkerPoint → ℕ
  | .lockQueue | .checkQueue => 1
  | _ => 0

theorem wake_ne_asleep (point : WorkerPoint) : point.wake ≠ .asleep := by
  cases point <;> simp [wake]

end WorkerPoint

namespace PoolState

variable {σ τ : Type*}

/-- A thread at one of some points. -/
def At (s : PoolState σ τ) (main : MainPoint → Prop) (worker : WorkerPoint → Prop) :
    MutexOwner → Prop
  | .main => main s.main
  | .worker w => ∃ point, s.workers[w]? = some point ∧ worker point

/-- The workers on their way to the queue. -/
def coming (s : PoolState σ τ) : ℕ := (s.workers.map WorkerPoint.comes).sum

end PoolState

namespace PipelineProgram

/-- What holds while the pipeline `p` is executed. -/
structure Guarded {σ τ : Type*} (p : Pipeline σ τ) (s : PoolState σ τ) : Prop where
  queue : ∀ o, s.queueMutex = some o ↔ s.At MainPoint.holdsQueue WorkerPoint.holdsQueue o
  wait : ∀ o, s.waitMutex = some o ↔ s.At MainPoint.holdsWait WorkerPoint.holdsWait o
  stop : s.stop = true ↔ s.main.hasStopped
  exited : .exited ∈ s.workers → s.stop = true
  awake : s.main.hasNotifiedAll → .asleep ∉ s.workers
  joined : ∀ w point, s.workers[w]? = some point → s.main.hasJoined w → point = .exited
  woken : .asleep ∈ s.workers → s.tasks.length ≤ s.coming + s.main.pendingNotify
  latch : s.main = .asleep → s.shared.numTasksFinished ≠ p.numThreads

variable {σ τ : Type*} {P : Platform} {prog : PipelineProgram σ τ} {p : Pipeline σ τ}
  {s s' : PoolState σ τ} {spurious : Bool}

/-- Where the main thread is at the head of its loop. -/
theorem enqueueFrom_cases (p : Pipeline σ τ) (i : ℕ) :
    enqueueFrom p i = .lockQueue i ∨ enqueueFrom p i = .lockWait := by
  unfold enqueueFrom
  split_ifs
  · exact .inl rfl
  · exact .inr rfl

/-- What does not hold before the locks does not hold at the head of the loop. -/
theorem not_enqueueFrom {q : MainPoint → Prop} (p : Pipeline σ τ) (i : ℕ)
    (hlock : ¬ q (.lockQueue i)) (hwait : ¬ q .lockWait) : ¬ q (enqueueFrom p i) := by
  rcases enqueueFrom_cases p i with h | h
  · exact h ▸ hlock
  · exact h ▸ hwait

/-! ## Who holds a mutex -/

section mutex

variable {mutex : Option MutexOwner} {inside inside' : MutexOwner → Prop}

/-- A free mutex is acquired. -/
theorem held_acquire (h : ∀ o, mutex = some o ↔ inside o) (hfree : mutex = none) {o : MutexOwner}
    (hinside : ∀ o', inside' o' ↔ inside o' ∨ o' = o) (o' : MutexOwner) :
    some o = some o' ↔ inside' o' := by
  rw [hinside, ← h, hfree, Option.some.injEq, eq_comm]
  simp

/-- The holder releases the mutex. -/
theorem held_release (h : ∀ o, mutex = some o ↔ inside o) {o : MutexOwner} (ho : inside o)
    (hinside : ∀ o', inside' o' ↔ inside o' ∧ o' ≠ o) (o' : MutexOwner) :
    none = some o' ↔ inside' o' := by
  rw [hinside, ← h, (h o).mpr ho]
  simp [eq_comm]

/-- Nobody enters or leaves. -/
theorem held_keep (h : ∀ o, mutex = some o ↔ inside o) (hinside : ∀ o, inside' o ↔ inside o)
    (o : MutexOwner) : mutex = some o ↔ inside' o := by
  rw [hinside, h]

end mutex

section places

variable {workers : List WorkerPoint} {w : ℕ} {point new : WorkerPoint}

/-- A worker after the step of one worker. -/
theorem getElem?_set_worker (hw : workers[w]? = some point) (new : WorkerPoint) (w' : ℕ) :
    (workers.set w new)[w']? = if w' = w then some new else workers[w']? := by
  obtain ⟨hlt, -⟩ := List.getElem?_eq_some_iff.mp hw
  rw [List.getElem?_set]
  by_cases hne : w = w'
  · subst hne
    simp [hlt]
  · simp [hne, Ne.symm hne]

theorem at_worker {main : MainPoint → Prop} {worker : WorkerPoint → Prop}
    (hw : s.workers[w]? = some point) (hpoint : worker point) : s.At main worker (.worker w) :=
  ⟨point, hw, hpoint⟩

theorem at_mainThread {main : MainPoint → Prop} {worker : WorkerPoint → Prop} {m : MainPoint}
    (hmain : s.main = m) (hm : main m) : s.At main worker .main := by
  show main s.main
  exact hmain ▸ hm

/-- The places after a step of a worker: only its own has changed. -/
theorem at_set {s' : PoolState σ τ} {main : MainPoint → Prop} {worker : WorkerPoint → Prop}
    (hw : s.workers[w]? = some point) (hworkers : s'.workers = s.workers.set w new)
    (hmain : main s'.main ↔ main s.main) (o : MutexOwner) :
    s'.At main worker o ↔ if o = .worker w then worker new else s.At main worker o := by
  cases o with
  | main => exact hmain
  | worker w' =>
      simp only [PoolState.At, hworkers, getElem?_set_worker hw, MutexOwner.worker.injEq]
      split_ifs <;> simp

/-- A worker that stays inside or outside. -/
theorem at_set_keep {s' : PoolState σ τ} {main : MainPoint → Prop} {worker : WorkerPoint → Prop}
    (hw : s.workers[w]? = some point) (hworkers : s'.workers = s.workers.set w new)
    (hmain : main s'.main ↔ main s.main) (hpoint : worker new ↔ worker point) (o : MutexOwner) :
    s'.At main worker o ↔ s.At main worker o := by
  rw [at_set hw hworkers hmain]
  split_ifs with ho
  · subst ho
    simp [PoolState.At, hw, hpoint]
  · rfl

/-- A worker that enters. -/
theorem at_set_enter {s' : PoolState σ τ} {main : MainPoint → Prop} {worker : WorkerPoint → Prop}
    (hw : s.workers[w]? = some point) (hworkers : s'.workers = s.workers.set w new)
    (hmain : main s'.main ↔ main s.main) (hnew : worker new) (o : MutexOwner) :
    s'.At main worker o ↔ s.At main worker o ∨ o = .worker w := by
  rw [at_set hw hworkers hmain]
  split_ifs with ho <;> simp [ho, hnew]

/-- A worker that leaves. -/
theorem at_set_leave {s' : PoolState σ τ} {main : MainPoint → Prop} {worker : WorkerPoint → Prop}
    (hw : s.workers[w]? = some point) (hworkers : s'.workers = s.workers.set w new)
    (hmain : main s'.main ↔ main s.main) (hnew : ¬ worker new) (o : MutexOwner) :
    s'.At main worker o ↔ s.At main worker o ∧ o ≠ .worker w := by
  rw [at_set hw hworkers hmain]
  split_ifs with ho <;> simp [ho, hnew]

/-- A step of the main thread. -/
theorem at_main {s' : PoolState σ τ} {main : MainPoint → Prop} {worker : WorkerPoint → Prop}
    (hworkers : s'.workers = s.workers) (hmain : main s'.main ↔ main s.main) (o : MutexOwner) :
    s'.At main worker o ↔ s.At main worker o := by
  cases o with
  | main => exact hmain
  | worker w => simp only [PoolState.At, hworkers]

/-- The main thread enters. -/
theorem at_main_enter {s' : PoolState σ τ} {main : MainPoint → Prop} {worker : WorkerPoint → Prop}
    (hworkers : s'.workers = s.workers) (hmain : main s'.main) (o : MutexOwner) :
    s'.At main worker o ↔ s.At main worker o ∨ o = .main := by
  cases o with
  | main => simp [PoolState.At, hmain]
  | worker w => simp [PoolState.At, hworkers]

/-- The main thread leaves. -/
theorem at_main_leave {s' : PoolState σ τ} {main : MainPoint → Prop} {worker : WorkerPoint → Prop}
    (hworkers : s'.workers = s.workers) (hmain : ¬ main s'.main) (o : MutexOwner) :
    s'.At main worker o ↔ s.At main worker o ∧ o ≠ .main := by
  cases o with
  | main => simp [PoolState.At, hmain]
  | worker w => simp [PoolState.At, hworkers]

/-- `notify_all` moves sleeping workers only. -/
theorem at_wake {s' : PoolState σ τ} {main : MainPoint → Prop} {worker : WorkerPoint → Prop}
    (hworkers : s'.workers = s.workers.map WorkerPoint.wake)
    (hmain : main s'.main ↔ main s.main) (hwake : ∀ point, worker point.wake ↔ worker point)
    (o : MutexOwner) : s'.At main worker o ↔ s.At main worker o := by
  cases o with
  | main => exact hmain
  | worker w =>
      simp only [PoolState.At, hworkers, List.getElem?_map]
      cases s.workers[w]? <;> simp [hwake]

end places

/-- The main thread is where it was, as far as a mutex goes. -/
theorem main_iff {q : MainPoint → Prop} {m m' : MainPoint} (hm : s.main = m) (h : q m' ↔ q m) :
    q m' ↔ q s.main := hm ▸ h

/-- **Every step** keeps `queue_mutex_` with the thread in its critical section. -/
theorem PoolStep.queue (h : Guarded p s) (hstep : PoolStep P prog p s spurious s')
    (o : MutexOwner) :
    s'.queueMutex = some o ↔ s'.At MainPoint.holdsQueue WorkerPoint.holdsQueue o := by
  have hold := h.queue
  cases hstep with
  | lockQueue _ hfree | lockStop _ hfree =>
      apply held_acquire hold hfree
      exact at_main_enter rfl trivial
  | pushTask hmain | setStop hmain =>
      apply held_release hold (at_mainThread hmain trivial)
      exact at_main_leave rfl id
  | wakeOne hmain hw =>
      apply held_keep hold
      refine at_set_keep hw rfl (main_iff hmain ?_) .rfl
      exact iff_of_false (not_enqueueFrom p _ id id) id
  | wakeNobody hmain _ | nextPipeline hmain _ =>
      apply held_keep hold
      refine at_main rfl (main_iff hmain ?_)
      exact iff_of_false (not_enqueueFrom _ _ id id) id
  | lockWait hmain _ | waited hmain _ | fellAsleep hmain _ | finalize hmain _
  | lastPipeline hmain _ | joined hmain _ | destroyed hmain _ | spuriousMain hmain =>
      apply held_keep hold
      exact at_main rfl (main_iff hmain .rfl)
  | notifyAll hmain =>
      apply held_keep hold
      refine at_wake rfl (main_iff hmain .rfl) ?_
      intro point
      cases point <;> exact .rfl
  | workerLockQueue hw hfree =>
      apply held_acquire hold hfree
      exact at_set_enter hw rfl .rfl trivial
  | popped hw _ =>
      apply held_release hold (at_worker hw trivial)
      exact at_set_leave hw rfl .rfl id
  | foundNone hw _ =>
      apply held_release hold (at_worker hw trivial)
      refine at_set_leave hw rfl .rfl ?_
      split_ifs <;> exact id
  | task hw _ | workerLockWait hw _ | spuriousWorker hw =>
      apply held_keep hold
      exact at_set_keep hw rfl .rfl .rfl
  | counted hw hmain =>
      apply held_keep hold
      refine at_set_keep hw rfl ?_ .rfl
      subst hmain
      dsimp only
      split_ifs with hready
      · exact main_iff hready.2 .rfl
      · exact .rfl

/-- **Every step** keeps `wait_mutex` with the thread in its critical section. -/
theorem PoolStep.wait (h : Guarded p s) (hstep : PoolStep P prog p s spurious s') (o : MutexOwner) :
    s'.waitMutex = some o ↔ s'.At MainPoint.holdsWait WorkerPoint.holdsWait o := by
  have hold := h.wait
  cases hstep with
  | lockQueue hmain _ | lockStop hmain _ | pushTask hmain | setStop hmain | finalize hmain _
  | lastPipeline hmain _ | joined hmain _ | destroyed hmain _ | spuriousMain hmain =>
      apply held_keep hold
      exact at_main rfl (main_iff hmain .rfl)
  | wakeOne hmain hw =>
      apply held_keep hold
      refine at_set_keep hw rfl (main_iff hmain ?_) .rfl
      exact iff_of_false (not_enqueueFrom p _ id id) id
  | wakeNobody hmain _ | nextPipeline hmain _ =>
      apply held_keep hold
      refine at_main rfl (main_iff hmain ?_)
      exact iff_of_false (not_enqueueFrom _ _ id id) id
  | lockWait _ hfree =>
      apply held_acquire hold hfree
      exact at_main_enter rfl trivial
  | waited hmain _ | fellAsleep hmain _ =>
      apply held_release hold (at_mainThread hmain trivial)
      exact at_main_leave rfl id
  | notifyAll hmain =>
      apply held_keep hold
      refine at_wake rfl (main_iff hmain .rfl) ?_
      intro point
      cases point <;> exact .rfl
  | workerLockQueue hw _ | popped hw _ | task hw _ | spuriousWorker hw =>
      apply held_keep hold
      exact at_set_keep hw rfl .rfl .rfl
  | foundNone hw _ =>
      apply held_keep hold
      refine at_set_keep hw rfl .rfl ?_
      split_ifs <;> exact .rfl
  | workerLockWait hw hfree =>
      apply held_acquire hold hfree
      exact at_set_enter hw rfl .rfl trivial
  | counted hw hmain =>
      apply held_release hold (at_worker hw trivial)
      refine at_set_leave hw rfl ?_ id
      subst hmain
      dsimp only
      split_ifs with hready
      · exact main_iff hready.2 .rfl
      · exact .rfl

/-! ## The end of the pool -/

/-- **Every step** keeps `stop_` with the place of the main thread. -/
theorem PoolStep.stop (h : Guarded p s) (hstep : PoolStep P prog p s spurious s') :
    s'.stop = true ↔ s'.main.hasStopped := by
  have hold := h.stop
  cases hstep with
  | setStop _ => exact iff_of_true rfl trivial
  | lockQueue hmain _ | pushTask hmain | lockWait hmain _ | waited hmain _ | fellAsleep hmain _
  | finalize hmain _ | lastPipeline hmain _ | lockStop hmain _ | spuriousMain hmain
  | notifyAll hmain | joined hmain _ | destroyed hmain _ =>
      rw [hmain] at hold
      exact hold
  | wakeOne hmain _ | wakeNobody hmain _ | nextPipeline hmain _ =>
      rw [hmain] at hold
      exact hold.trans (iff_of_false id (not_enqueueFrom _ _ id id))
  | workerLockQueue _ _ | popped _ _ | foundNone _ _ | task _ _ | workerLockWait _ _
  | spuriousWorker _ => exact hold
  | counted _ hmain =>
      subst hmain
      dsimp only
      split_ifs with hready
      · rw [hready.2] at hold
        exact hold
      · exact hold

/-- The workers after a step are those before, but for one that has moved. -/
theorem mem_set_worker {workers : List WorkerPoint} {w : ℕ} {new point : WorkerPoint}
    (h : point ∈ workers.set w new) : point ∈ workers ∨ point = new :=
  List.mem_or_eq_of_mem_set h

/-- **A worker leaves** only after `stop_` has been set. -/
theorem PoolStep.exited (h : Guarded p s) (hstep : PoolStep P prog p s spurious s')
    (hmem : .exited ∈ s'.workers) : s'.stop = true := by
  have hold := h.exited
  cases hstep with
  | setStop _ => rfl
  | lockQueue _ _ | pushTask _ | wakeNobody _ _ | lockWait _ _ | waited _ _ | fellAsleep _ _
  | finalize _ _ | nextPipeline _ _ | lastPipeline _ _ | lockStop _ _ | joined _ _ | destroyed _ _
  | spuriousMain _ => exact hold hmem
  | notifyAll _ =>
      obtain ⟨point, hpoint, hwake⟩ := List.mem_map.mp hmem
      cases point <;> simp [WorkerPoint.wake] at hwake
      exact hold hpoint
  | foundNone _ _ =>
      rcases mem_set_worker hmem with hmem | heq
      · exact hold hmem
      · by_contra hstop
        rw [if_neg hstop] at heq
        simp at heq
  | wakeOne _ _ | workerLockQueue _ _ | popped _ _ | task _ _ | workerLockWait _ _ | counted _ _
  | spuriousWorker _ =>
      rcases mem_set_worker hmem with hmem | heq
      · exact hold hmem
      · simp at heq

/-- **Nobody sleeps** after `notify_all`. -/
theorem PoolStep.awake (h : Guarded p s) (hstep : PoolStep P prog p s spurious s')
    (hmain' : s'.main.hasNotifiedAll) : .asleep ∉ s'.workers := by
  have hold := h.awake
  -- a worker that has not moved to sleep
  have hset : ∀ {w : ℕ} {new : WorkerPoint}, s.main.hasNotifiedAll → new ≠ .asleep →
      .asleep ∉ s.workers.set w new := by
    intro w new hall hnew hmem
    rcases mem_set_worker hmem with hmem | heq
    · exact hold hall hmem
    · exact hnew heq.symm
  cases hstep with
  | notifyAll _ =>
      intro hmem
      obtain ⟨point, -, hwake⟩ := List.mem_map.mp hmem
      exact WorkerPoint.wake_ne_asleep point hwake
  | lockQueue _ _ | pushTask _ | lockWait _ _ | waited _ _ | fellAsleep _ _ | finalize _ _
  | lastPipeline _ _ | lockStop _ _ | setStop _ | spuriousMain _ => exact hmain'.elim
  | wakeOne _ _ | wakeNobody _ _ | nextPipeline _ _ =>
      exact absurd hmain' (not_enqueueFrom _ _ id id)
  | joined hmain _ | destroyed hmain _ => exact hold (hmain ▸ trivial)
  | foundNone hw _ =>
      have hstop : s.stop = true := by
        apply h.stop.mpr
        cases hm : s.main with
        | join _ | destroyed => trivial
        | _ => rw [hm] at hmain'; exact hmain'.elim
      exact hset hmain' (by rw [if_pos hstop]; simp)
  | workerLockQueue _ _ | popped _ _ | task _ _ | workerLockWait _ _ | spuriousWorker _ =>
      exact hset hmain' (by simp)
  | counted _ hmain =>
      refine hset ?_ (by simp)
      subst hmain
      split_ifs at hmain' with hready
      · exact hmain'.elim
      · exact hmain'

/-- **A joined worker** has exited. -/
theorem PoolStep.hasExited (h : Guarded p s) (hstep : PoolStep P prog p s spurious s') (w : ℕ)
    (point : WorkerPoint) (hw' : s'.workers[w]? = some point) (hmain' : s'.main.hasJoined w) :
    point = .exited := by
  have hold := h.joined w
  -- an exited worker does not move
  have hset : ∀ {w' : ℕ} {old new : WorkerPoint}, s.workers[w']? = some old → old ≠ .exited →
      (s.workers.set w' new)[w]? = some point → s.main.hasJoined w → point = .exited := by
    intro w' old new hw hne hset hjoined
    rw [getElem?_set_worker hw] at hset
    split_ifs at hset with heq
    · subst heq
      exact absurd (hold old hw hjoined) hne
    · exact hold point hset hjoined
  cases hstep with
  | lockQueue _ _ | pushTask _ | lockWait _ _ | waited _ _ | fellAsleep _ _ | finalize _ _
  | lastPipeline _ _ | lockStop _ _ | setStop _ | spuriousMain _ => exact hmain'.elim
  | wakeOne _ _ | wakeNobody _ _ | nextPipeline _ _ =>
      exact absurd hmain' (not_enqueueFrom _ _ id id)
  | notifyAll _ => exact absurd hmain' (Nat.not_lt_zero w)
  | @joined w₀ hmain hw =>
      rcases (Nat.lt_succ_iff.mp hmain').lt_or_eq with hlt | rfl
      · exact hold point hw' (hmain ▸ hlt)
      · exact Option.some.inj (hw'.symm.trans hw)
  | @destroyed w₀ hmain hw =>
      apply hold point hw'
      rw [hmain]
      show w < w₀
      exact (List.getElem?_eq_some_iff.mp hw').1.trans_le (List.getElem?_eq_none_iff.mp hw)
  | workerLockQueue hw _ | popped hw _ | foundNone hw _ | task hw _ | workerLockWait hw _
  | spuriousWorker hw => exact hset hw (by simp) hw' hmain'
  | counted hw hmain =>
      refine hset hw (by simp) hw' ?_
      subst hmain
      split_ifs at hmain' with hready
      · exact hmain'.elim
      · exact hmain'

/-! ## No notification is lost -/

/-- The workers on their way to the queue after a step of one worker. -/
theorem coming_set {workers : List WorkerPoint} {w : ℕ} {old : WorkerPoint}
    (hw : workers[w]? = some old) (new : WorkerPoint) :
    ((workers.set w new).map WorkerPoint.comes).sum + old.comes =
      (workers.map WorkerPoint.comes).sum + new.comes :=
  sum_map_set WorkerPoint.comes hw

theorem coming_le_set {workers : List WorkerPoint} {w : ℕ} {old new : WorkerPoint}
    (hw : workers[w]? = some old) (hle : old.comes ≤ new.comes) :
    (workers.map WorkerPoint.comes).sum ≤ ((workers.set w new).map WorkerPoint.comes).sum := by
  have hcoming := coming_set hw new
  omega

/-- **Every step** keeps the workers awake that the tasks of the queue need. -/
theorem PoolStep.woken (h : Guarded p s) (hstep : PoolStep P prog p s spurious s')
    (hasleep : .asleep ∈ s'.workers) :
    s'.tasks.length ≤ s'.coming + s'.main.pendingNotify := by
  have hold := h.woken
  have hset : ∀ {w : ℕ} {new : WorkerPoint}, new ≠ .asleep → .asleep ∈ s.workers.set w new →
      .asleep ∈ s.workers := by
    intro w new hnew hmem
    rcases mem_set_worker hmem with hmem | heq
    · exact hmem
    · exact absurd heq.symm hnew
  unfold PoolState.coming at hold ⊢
  cases hstep with
  | lockQueue hmain _ | lockWait hmain _ | waited hmain _ | fellAsleep hmain _ | finalize hmain _
  | lastPipeline hmain _ | lockStop hmain _ | setStop hmain | joined hmain _ | destroyed hmain _
  | spuriousMain hmain =>
      rw [hmain] at hold
      exact hold hasleep
  | nextPipeline hmain _ =>
      rw [hmain] at hold
      exact (hold hasleep).trans (Nat.le_add_right _ _)
  | pushTask hmain =>
      have hle := hold hasleep
      rw [hmain] at hle
      show (s.tasks ++ [_]).length ≤ _ + 1
      rw [List.length_append, List.length_singleton]
      exact Nat.succ_le_succ hle
  | wakeOne hmain hw =>
      -- the notification becomes a worker that comes
      have hle := hold (List.mem_of_getElem? hw)
      have hcoming := coming_set hw .lockQueue
      rw [hmain] at hle
      simp only [WorkerPoint.comes, MainPoint.pendingNotify] at hle hcoming
      dsimp only
      omega
  | wakeNobody _ hnobody => exact absurd hasleep hnobody
  | notifyAll _ =>
      obtain ⟨point, -, hwake⟩ := List.mem_map.mp hasleep
      exact absurd hwake (WorkerPoint.wake_ne_asleep point)
  | @popped w threadId tasks hw htasks =>
      -- the task goes with the worker that came for it
      have hle := hold (hset (by simp) hasleep)
      have hcoming := coming_set hw (.task threadId .getData)
      rw [htasks, List.length_append, List.length_singleton] at hle
      simp only [WorkerPoint.comes] at hcoming
      dsimp only
      omega
  | foundNone _ htasks =>
      dsimp only
      rw [htasks]
      exact Nat.zero_le _
  | workerLockQueue hw _ | task hw _ | workerLockWait hw _ =>
      have hle := hold (hset (by simp) hasleep)
      apply hle.trans
      apply Nat.add_le_add_right
      apply coming_le_set hw
      exact le_rfl
  | spuriousWorker hw =>
      have hle := hold (List.mem_of_getElem? hw)
      apply hle.trans
      apply Nat.add_le_add_right
      exact coming_le_set hw (Nat.zero_le _)
  | counted hw hmain =>
      have hle := hold (hset (by simp) hasleep)
      apply hle.trans
      apply Nat.add_le_add (coming_le_set hw (Nat.zero_le _))
      subst hmain
      split_ifs with hready
      · rw [hready.2]
        exact le_rfl
      · exact le_rfl

/-- **The main thread sleeps** only while a task has still to be counted. -/
theorem PoolStep.latch (h : Guarded p s) (hstep : PoolStep P prog p s spurious s')
    (hstage : s'.stage = s.stage) (hmain' : s'.main = .asleep) :
    s'.shared.numTasksFinished ≠ p.numThreads := by
  have hold := h.latch
  cases hstep with
  | fellAsleep _ hready => exact hready
  | wakeOne _ _ | wakeNobody _ _ =>
      exact absurd hmain' (not_enqueueFrom (q := fun m => m = .asleep) p _ (by simp) (by simp))
  | nextPipeline _ _ => exact absurd hstage (Nat.succ_ne_self _)
  | lockQueue _ _ | pushTask _ | lockWait _ _ | waited _ _ | finalize _ _ | lastPipeline _ _
  | lockStop _ _ | setStop _ | notifyAll _ | joined _ _ | destroyed _ _ | spuriousMain _ =>
      simp at hmain'
  | workerLockQueue _ _ | popped _ _ | foundNone _ _ | workerLockWait _ _ | spuriousWorker _ =>
      exact hold hmain'
  | task _ htask =>
      have hcount := (Pipeline.taskStep_cases htask).numTasksFinished
      dsimp only [Option.elim_some, add_zero] at hcount ⊢
      rw [hcount]
      exact hold hmain'
  | counted _ hmain =>
      subst hmain
      dsimp only at hmain' ⊢
      split_ifs at hmain' with hready
      exact fun hcount => hready ⟨hcount, hmain'⟩

/-- The pipeline stays the same, or `Execute` of the next one starts. -/
theorem PoolStep.stage (hstep : PoolStep P prog p s spurious s') :
    s'.stage = s.stage ∨ s'.stage = s.stage + 1 ∧ s'.main ≠ .asleep ∧
      prog.pipelines[s.stage + 1]? ≠ none := by
  cases hstep with
  | nextPipeline _ hnext =>
      refine .inr ⟨rfl, ?_, by simp [hnext]⟩
      exact not_enqueueFrom (q := fun m => m = .asleep) _ _ (by simp) (by simp)
  | _ => exact .inl rfl

/-- **Every step** keeps the mutexes and the notifications. -/
theorem PoolStep.guarded (hp : prog.pipelines[s.stage]? = some p) (h : Guarded p s)
    (hstep : PoolStep P prog p s spurious s') :
    ∃ q, prog.pipelines[s'.stage]? = some q ∧ Guarded q s' := by
  have hguarded : ∀ q, (s'.main = .asleep → s'.shared.numTasksFinished ≠ q.numThreads) →
      Guarded q s' := fun q hlatch =>
    ⟨hstep.queue h, hstep.wait h, hstep.stop h, hstep.exited h, hstep.awake h, hstep.hasExited h,
      hstep.woken h, hlatch⟩
  rcases hstep.stage with hstage | ⟨hstage, hmain, hnext⟩
  · exact ⟨p, hstage ▸ hp, hguarded p (hstep.latch h hstage)⟩
  · obtain ⟨q, hq⟩ := Option.ne_none_iff_exists'.mp hnext
    exact ⟨q, hstage ▸ hq, hguarded q fun hasleep => absurd hasleep hmain⟩

/-- `Collect` starts with free mutexes and workers on their way to the queue. -/
theorem guarded_init (hp : prog.pipelines[0]? = some p) (poolSize : ℕ) :
    Guarded p (prog.init poolSize) := by
  have hmain : (prog.init poolSize).main = enqueueFrom p 0 := by simp [init, hp]
  have hworker : ∀ (w : ℕ) (point : WorkerPoint),
      (prog.init poolSize).workers[w]? = some point → point = .lockQueue := by
    intro w point hw
    exact List.eq_of_mem_replicate (List.mem_of_getElem? hw)
  have hmem : ∀ point ∈ (prog.init poolSize).workers, point = .lockQueue := by
    intro point hpoint
    exact List.eq_of_mem_replicate hpoint
  have hfree : ∀ {inMain : MainPoint → Prop} {inWorker : WorkerPoint → Prop},
      ¬ inMain (enqueueFrom p 0) → ¬ inWorker .lockQueue → ∀ o,
        none = some o ↔ (prog.init poolSize).At inMain inWorker o := by
    intro inMain inWorker hm hw o
    apply iff_of_false (by simp)
    cases o with
    | main =>
        show ¬ inMain (prog.init poolSize).main
        rw [hmain]
        exact hm
    | worker w =>
        rintro ⟨point, hpoint, hin⟩
        exact hw (hworker w point hpoint ▸ hin)
  refine ⟨hfree (not_enqueueFrom p 0 id id) id, hfree (not_enqueueFrom p 0 id id) id, ?_, ?_, ?_,
    ?_, ?_, ?_⟩
  · rw [hmain]
    exact iff_of_false Bool.false_ne_true (not_enqueueFrom p 0 id id)
  · intro hexited
    simpa using hmem _ hexited
  · rw [hmain]
    exact fun hall => absurd hall (not_enqueueFrom p 0 id id)
  · rw [hmain]
    exact fun w _ _ hjoined => absurd hjoined (not_enqueueFrom p 0 id id)
  · intro hasleep
    simpa using hmem _ hasleep
  · rw [hmain]
    exact fun hasleep =>
      absurd hasleep (not_enqueueFrom (q := fun m => m = .asleep) p 0 (by simp) (by simp))

end PipelineProgram

end ColumnarEngine
