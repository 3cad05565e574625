import ColumnarEngine.Exec.Scan

/-!
# A pipeline without `Limit` processes every batch once

The accounting of a run: what was sunk and what the tasks in flight will still sink are together the
non-empty results of the batches taken (`Accounts.sunk`), the batches taken and those the source has
still to emit are the batches of the source, every enqueued task is in the queue or has been
started, and every started task is running or has been counted. Once the counter reaches
`num_threads` there is no task left, so nothing is in flight (`processes_once`).
-/

namespace ColumnarEngine

open Found

/-! ## The transform chain as a function -/

section chain

variable (P : Platform)

/-- What a chain of transforms without `Limit` makes of a batch; no batch if a transform returns
none (or is undefined). -/
def chainResult : List TransformOperator → RecordBatch → Option RecordBatch
  | [], batch => some batch
  | t :: ts, batch => (t.execute P batch).join.bind (chainResult ts)

/-- The non-empty result of the chain for a batch of a task. -/
def deliver (ts : List TransformOperator) (c : RecordBatch × ℕ) : Option (RecordBatch × ℕ) :=
  ((chainResult P ts c.1).filter fun batch => 0 < batch.numRows).map fun batch => (batch, c.2)

variable {P}

/-- Without a `Limit` in it, the chain has that one result. -/
theorem chainResult_eq_some_iff {ts : List TransformOperator} (hts : ∀ t ∈ ts, t.isLimit = false)
    {b b' : RecordBatch} : chainResult P ts b = some b' ↔ Chain P ts b b' := by
  induction ts generalizing b with
  | nil =>
      constructor
      · rintro ⟨⟩
        exact .nil _
      · rintro ⟨⟩
        rfl
  | cons t ts ih =>
      have htail := fun {b₁ : RecordBatch} => ih (b := b₁) fun t' ht' => hts t' (.tail t ht')
      have hreturns := fun {r : Option RecordBatch} =>
        TransformOperator.returns_iff_execute (P := P) (b := b) (r := r) (hts t List.mem_cons_self)
      rw [chainResult, Option.bind_eq_some_iff]
      constructor
      · rintro ⟨b₁, hb₁, hrest⟩
        exact .cons (hreturns.mpr (Option.join_eq_some_iff.mp hb₁)) (htail.mp hrest)
      · rintro (_ | ⟨hfirst, hrest⟩)
        exact ⟨_, Option.join_eq_some_iff.mpr (hreturns.mp hfirst), htail.mpr hrest⟩

/-- A filter lets no row of an empty batch pass. -/
theorem FilterFunction.evaluate_empty {f : FilterFunction} {b : RecordBatch} (hb : b.numRows = 0)
    {sel : List ℕ} (h : f.evaluate P b = some sel) : sel = [] := by
  induction f generalizing sel with
  | compare cmp t col target =>
      obtain ⟨elements, helements, rfl⟩ := Option.map_eq_some_iff.mp h
      obtain ⟨c, -, helements⟩ := Option.bind_eq_some_iff.mp helements
      have hindices : b.indices = some [] := by
        cases hsel : b.selectionVector <;> simp [RecordBatch.indices, hsel, hb]
      split_ifs at helements
      obtain rfl : [] = elements := by simpa [hindices, gather] using helements
      rfl
  | and left right ihl ihr =>
      obtain ⟨ls, hls, h⟩ := Option.bind_eq_some_iff.mp h
      obtain ⟨rs, hrs, h⟩ := Option.bind_eq_some_iff.mp h
      obtain rfl := ihl hls
      simpa [setIntersection] using h.symm
  | or left right ihl ihr =>
      obtain ⟨ls, hls, h⟩ := Option.bind_eq_some_iff.mp h
      obtain ⟨rs, hrs, h⟩ := Option.bind_eq_some_iff.mp h
      obtain rfl := ihl hls
      obtain rfl := ihr hrs
      simpa [setUnion] using h.symm

/-- A transform makes no rows of an empty batch. -/
theorem TransformOperator.numRows_of_empty {t : TransformOperator} {b b' : RecordBatch}
    (hb : b.numRows = 0) (h : t.execute P b = some (some b')) : b'.numRows = 0 := by
  cases t with
  | filter f =>
      obtain ⟨sel, hsel, h⟩ := Option.map_eq_some_iff.mp h
      obtain rfl := FilterFunction.evaluate_empty hb hsel
      simp at h
  | scalar fs =>
      obtain ⟨b₁, hb₁, h⟩ := Option.map_eq_some_iff.mp h
      obtain rfl := Option.some.inj h
      obtain ⟨-, columns, rfl⟩ := scalarExecute_eq_some hb₁
      exact hb
  | drop idxs =>
      obtain ⟨b₁, hb₁, h⟩ := Option.map_eq_some_iff.mp h
      obtain rfl := Option.some.inj h
      unfold dropExecute at hb₁
      split_ifs at hb₁
      obtain ⟨columns, -, rfl⟩ := Option.map_eq_some_iff.mp hb₁
      exact hb
  | reorder idxs =>
      obtain ⟨b₁, hb₁, h⟩ := Option.map_eq_some_iff.mp h
      obtain rfl := Option.some.inj h
      obtain ⟨columns, -, rfl⟩ := Option.map_eq_some_iff.mp hb₁
      exact hb
  | limit n => simp [execute] at h

/-- Nothing is delivered for an empty batch, so leaving the loop at one changes nothing. -/
theorem deliver_empty {ts : List TransformOperator} {c : RecordBatch × ℕ} (hc : c.1.numRows = 0) :
    deliver P ts c = none := by
  have hempty : ∀ {b b' : RecordBatch}, b.numRows = 0 → chainResult P ts b = some b' →
      b'.numRows = 0 := by
    intro b b' hb h
    induction ts generalizing b with
    | nil =>
        obtain rfl := Option.some.inj h
        exact hb
    | cons t ts ih =>
        obtain ⟨b₁, hb₁, hrest⟩ := Option.bind_eq_some_iff.mp h
        exact ih (TransformOperator.numRows_of_empty hb (Option.join_eq_some_iff.mp hb₁)) hrest
  unfold deliver
  rw [Option.map_eq_none_iff, Option.filter_eq_none_iff]
  intro b' hb'
  simp [hempty hc hb']

end chain

namespace Pipeline

variable {σ τ : Type*} {P : Platform} {p : Pipeline σ τ}

/-- What a task will still sink. -/
def owed (P : Platform) (p : Pipeline σ τ) (threadId : ℕ) : TaskPoint → List (RecordBatch × ℕ)
  | .execute i batch => (deliver P (p.transforms.drop i) (batch, threadId)).toList
  | .isPipelineDone i batch => (deliver P (p.transforms.drop (i + 1)) (batch, threadId)).toList
  | .sink batch _ => [(batch, threadId)]
  | .getData | .storeDone _ _ | .countFinished => []

/-- What a pool thread will still sink of the batch it holds. -/
def owedBy (P : Platform) (p : Pipeline σ τ) : PoolThread → Multiset (RecordBatch × ℕ)
  | .waiting => 0
  | .running threadId point => (owed P p threadId point : List (RecordBatch × ℕ))

/-- One for a thread that runs a task. -/
def isRunning : PoolThread → ℕ
  | .waiting => 0
  | .running _ _ => 1

/-- The points a task reaches without a `Limit`. -/
def Unlimited : TaskPoint → Prop
  | .storeDone _ _ => False
  | .sink _ stop => stop = false
  | _ => True

section points

variable {threadId : ℕ}

theorem owed_enterTransform (i : ℕ) (batch : RecordBatch) :
    owed P p threadId (p.enterTransform i batch) =
      (deliver P (p.transforms.drop i) (batch, threadId)).toList := by
  unfold enterTransform
  split_ifs with hi
  · rfl
  · rw [List.drop_of_length_le (not_lt.mp hi)]
    by_cases hrows : 0 < batch.numRows <;>
      simp [afterTransforms, hrows, owed, deliver, chainResult, Option.filter]

theorem owed_afterExecute (i : ℕ) (result : Option RecordBatch) :
    owed P p threadId (afterExecute i result) =
      result.elim [] fun b => (deliver P (p.transforms.drop (i + 1)) (b, threadId)).toList := by
  cases result with
  | none => rfl
  | some b =>
      dsimp only [afterExecute, Option.elim]
      split_ifs with hrows
      · rw [deliver_empty (by exact hrows)]
        rfl
      · rfl

/-- What is owed before a transform is what is owed for its result. -/
theorem deliver_drop {i : ℕ} {t : TransformOperator} (ht : p.transforms[i]? = some t)
    {batch : RecordBatch} {result : Option RecordBatch} (h : t.execute P batch = some result) :
    (deliver P (p.transforms.drop i) (batch, threadId)).toList =
      result.elim [] fun b => (deliver P (p.transforms.drop (i + 1)) (b, threadId)).toList := by
  obtain ⟨hi, rfl⟩ := List.getElem?_eq_some_iff.mp ht
  rw [List.drop_eq_getElem_cons hi]
  cases result <;> simp [deliver, chainResult, h]

theorem unlimited_enterTransform (i : ℕ) (batch : RecordBatch) :
    Unlimited (p.enterTransform i batch) ∧ p.enterTransform i batch ≠ .countFinished := by
  unfold enterTransform afterTransforms
  split_ifs
  · exact ⟨trivial, by simp⟩
  · exact ⟨rfl, by simp⟩
  · contradiction
  · exact ⟨trivial, by simp⟩

theorem unlimited_afterExecute (i : ℕ) (result : Option RecordBatch) :
    Unlimited (afterExecute i result) ∧ afterExecute i result ≠ .countFinished := by
  cases result with
  | none => exact ⟨trivial, by simp [afterExecute]⟩
  | some batch =>
      dsimp only [afterExecute]
      split_ifs
      · exact ⟨trivial, by simp⟩
      · exact ⟨trivial, by simp⟩

end points

/-- The accounts of a run from a source. -/
structure Accounts (P : Platform) (p : Pipeline σ τ) (source : σ) (s : ExecState σ τ) : Prop where
  source_eq : p.source.pending source =
    s.shared.taken.map Prod.fst ++ p.source.pending s.shared.source
  sunk : (s.shared.sunk : Multiset (RecordBatch × ℕ)) + (s.threads.map (owedBy P p)).sum =
    (s.shared.taken.filterMap (deliver P p.transforms) : List (RecordBatch × ℕ))
  unlimited : ∀ threadId point, .running threadId point ∈ s.threads → Unlimited point
  drained : (∃ threadId, .running threadId .countFinished ∈ s.threads) ∨
    0 < s.shared.numTasksFinished → p.source.pending s.shared.source = []
  queued : (s.started ++ s.tasks).Perm (List.range s.enqueued)
  counted : s.shared.numTasksFinished + (s.threads.map isRunning).sum = s.started.length
  runs : ∀ threadId point, .running threadId point ∈ s.threads → threadId ∈ s.started
  takes : ∀ c ∈ s.shared.taken, c.2 ∈ s.started
  enqueued : s.enqueued ≤ p.numThreads
  waited : s.finalizing = true →
    s.enqueued = p.numThreads ∧ s.shared.numTasksFinished = p.numThreads

/-- What a step of a task does to the accounts: `sunk` says that what it sinks, or drops, is no
longer owed. -/
structure TaskAccounts (P : Platform) (p : Pipeline σ τ) (threadId : ℕ) (s : Shared σ τ)
    (point : TaskPoint) (s' : Shared σ τ) (next : Option TaskPoint) : Prop where
  source_eq : s.taken.map Prod.fst ++ p.source.pending s.source =
    s'.taken.map Prod.fst ++ p.source.pending s'.source
  sunk : (s'.sunk ++ next.elim [] (owed P p threadId) ++
      s.taken.filterMap (deliver P p.transforms)).Perm
    (s.sunk ++ owed P p threadId point ++ s'.taken.filterMap (deliver P p.transforms))
  unlimited : ∀ point', next = some point' → Unlimited point'
  drained : p.source.pending s.source = [] ∨ next = some .countFinished →
    p.source.pending s'.source = []
  takes : ∀ c ∈ s'.taken, c ∈ s.taken ∨ c.2 = threadId
  counted : s'.numTasksFinished = s.numTasksFinished + next.elim 1 fun _ => 0
  finished : next = none → point = .countFinished

section steps

variable {s : Shared σ τ} {threadId : ℕ}

/-- A step that moves on with its batch, to a point that owes the same. -/
theorem taskAccounts_moves {point next : TaskPoint} {limits : ℕ → LimitState}
    (howed : owed P p threadId next = owed P p threadId point)
    (hnext : Unlimited next ∧ next ≠ .countFinished) :
    TaskAccounts P p threadId s point { s with limits := limits } (some next) := by
  obtain ⟨hunlimited, hne⟩ := hnext
  refine ⟨rfl, ?_, ?_, ?_, fun c hc => .inl hc, rfl, by simp⟩
  · rw [Option.elim, howed]
  · rintro _ ⟨⟩
    exact hunlimited
  · rintro (hnil | hcount)
    · exact hnil
    · exact absurd (Option.some.inj hcount) hne

/-- A step that finds the source used up. -/
theorem taskAccounts_drained {source : σ}
    (h : p.source.getData s.source = some (none, source)) :
    TaskAccounts P p threadId s .getData { s with source := source } (some .countFinished) := by
  have hnone := p.source.exhausted h
  have hnext : p.source.pending source = [] := by
    simpa [hnone] using (p.source.pending_eq h).symm
  refine ⟨by rw [hnone, hnext], .refl _, ?_, fun _ => hnext, fun c hc => .inl hc, rfl, by simp⟩
  rintro _ ⟨⟩
  trivial

/-- A step that takes a batch owes what the transforms make of it. -/
theorem taskAccounts_took {source : σ} {batch : RecordBatch}
    (h : p.source.getData s.source = some (some batch, source)) :
    TaskAccounts P p threadId s .getData
      { s with source := source, taken := s.taken ++ [(batch, threadId)] }
      (some (p.enterTransform 0 batch)) := by
  obtain ⟨hunlimited, hne⟩ := unlimited_enterTransform (p := p) 0 batch
  have hpending := p.source.pending_eq h
  refine ⟨by rw [hpending]; simp, ?_, ?_, ?_, ?_, rfl, by simp⟩
  · rw [Option.elim, owed_enterTransform, List.filterMap_append, List.append_assoc,
      List.append_assoc, owed, List.nil_append, List.drop_zero]
    have hone : [(batch, threadId)].filterMap (deliver P p.transforms) =
        (deliver P p.transforms (batch, threadId)).toList := by
      cases hd : deliver P p.transforms (batch, threadId) <;> simp [hd]
    rw [hone]
    exact List.Perm.append_left _ List.perm_append_comm
  · rintro _ ⟨⟩
    exact hunlimited
  · rintro (hnil | hcount)
    · simp [hpending] at hnil
    · exact absurd (Option.some.inj hcount) hne
  · intro c hc
    rcases List.mem_append.mp hc with hc | hc
    · exact .inl hc
    · exact .inr (by rw [List.mem_singleton.mp hc])

/-- A step that sinks what it owes. -/
theorem taskAccounts_sank {batch : RecordBatch} {sink : τ} :
    TaskAccounts P p threadId s (.sink batch false)
      { s with sink := sink, sunk := s.sunk ++ [(batch, threadId)] } (some .getData) := by
  refine ⟨rfl, by simp [owed], ?_, ?_, fun c hc => .inl hc, rfl, by simp⟩
  · rintro _ ⟨⟩
    trivial
  · rintro (hnil | hcount)
    · exact hnil
    · simp at hcount

/-- The last step counts the task as finished. -/
theorem taskAccounts_counted :
    TaskAccounts P p threadId s .countFinished
      { s with numTasksFinished := s.numTasksFinished + 1 } none := by
  refine ⟨rfl, .refl _, by simp, ?_, fun c hc => .inl hc, rfl, fun _ => rfl⟩
  rintro (hnil | hcount)
  · exact hnil
  · simp at hcount

end steps

/-- The step lemma of a task. -/
theorem TaskStep.accounts {s s' : Shared σ τ} {threadId : ℕ} {point : TaskPoint}
    {next : Option TaskPoint} (h : p.TaskStep P s threadId point s' next)
    (hlimits : ∀ t ∈ p.transforms, t.isLimit = false) (hpoint : Unlimited point) :
    TaskAccounts P p threadId s point s' next := by
  cases h with
  | drained h => exact taskAccounts_drained h
  | took h => exact taskAccounts_took h
  | @executed i batch t result limits ht hresult =>
      have hexec : t.execute P batch = some result :=
        (TransformOperator.returns_iff_execute (hlimits t (List.mem_of_getElem? ht))).mp hresult
      apply taskAccounts_moves _ (unlimited_afterExecute i result)
      rw [owed_afterExecute, owed, deliver_drop ht hexec]
  | reached ht _ => simpa [TransformOperator.isLimit] using hlimits _ (List.mem_of_getElem? ht)
  | storedDone => exact hpoint.elim
  | @stopped i batch h =>
      unfold isPipelineDone at h
      split at h
      · next n ht => simpa [TransformOperator.isLimit] using hlimits _ (List.mem_of_getElem? ht)
      · simp at h
  | @continued i batch h =>
      apply taskAccounts_moves _ (unlimited_enterTransform (i + 1) batch)
      rw [owed_enterTransform, owed]
  | @sank batch stop sink h =>
      obtain rfl : stop = false := hpoint
      exact taskAccounts_sank
  | counted => exact taskAccounts_counted

/-- A running task keeps the counter below `num_threads`. -/
theorem Accounts.unfinished {source : σ} {s : ExecState σ τ} (h : Accounts P p source s)
    {w threadId : ℕ} {point : TaskPoint} (hw : s.threads[w]? = some (.running threadId point)) :
    s.shared.numTasksFinished < p.numThreads := by
  have hset := sum_map_set (b := .waiting) isRunning hw
  have hcounted := h.counted
  have hqueued := h.queued.length_eq
  have henqueued := h.enqueued
  rw [List.length_append, List.length_range] at hqueued
  simp only [isRunning] at hset
  omega

/-- Starting a task keeps the accounts. -/
theorem Accounts.start {source : σ} {s : ExecState σ τ} (h : Accounts P p source s)
    {w threadId : ℕ} {tasks : List ℕ} (hw : s.threads[w]? = some .waiting)
    (htasks : s.tasks = tasks ++ [threadId]) :
    Accounts P p source { s with
      tasks := tasks
      threads := s.threads.set w (.running threadId .getData)
      started := s.started ++ [threadId] } := by
  have howed := sum_map_set (b := .running threadId .getData) (owedBy P p) hw
  have hrunning := sum_map_set (b := .running threadId .getData) isRunning hw
  have hsub : ∀ {t}, t ∈ s.started → t ∈ s.started ++ [threadId] :=
    fun ht => List.mem_append_left _ ht
  refine { h with
    sunk := ?_, unlimited := fun t point hmem => ?_, drained := ?_, queued := ?_,
    counted := ?_, runs := fun t point hmem => ?_, takes := fun c hc => hsub (h.takes c hc) }
  · simp only [owedBy, owed, Multiset.coe_nil, add_zero] at howed
    rw [howed]
    exact h.sunk
  · rcases running_of_mem_start hmem with hmem | ⟨rfl, rfl⟩
    · exact h.unlimited t point hmem
    · trivial
  · rintro (⟨t, hmem⟩ | hfinished)
    · rcases running_of_mem_start hmem with hmem | ⟨-, hpoint⟩
      · exact h.drained (.inl ⟨t, hmem⟩)
      · simp at hpoint
    · exact h.drained (.inr hfinished)
  · rw [List.append_assoc]
    apply (List.Perm.append_left _ List.perm_append_comm).trans
    exact htasks ▸ h.queued
  · have hcounted := h.counted
    simp only [isRunning] at hrunning
    dsimp only
    rw [List.length_append, List.length_singleton]
    omega
  · rcases running_of_mem_start hmem with hmem | ⟨rfl, rfl⟩
    · exact hsub (h.runs t point hmem)
    · simp

/-- A step of a task keeps the balance of what was sunk and what is owed: what the task sinks is no
longer owed by its thread. -/
theorem Accounts.sunk_task {source : σ} {s : ExecState σ τ} (h : Accounts P p source s)
    {w threadId : ℕ} {point : TaskPoint} {shared : Shared σ τ} {next : Option TaskPoint}
    (hw : s.threads[w]? = some (.running threadId point))
    (htask : TaskAccounts P p threadId s.shared point shared next) :
    (shared.sunk : Multiset (RecordBatch × ℕ)) +
        ((s.threads.set w (next.elim .waiting (.running threadId))).map (owedBy P p)).sum =
      (shared.taken.filterMap (deliver P p.transforms) : List (RecordBatch × ℕ)) := by
  set thread : PoolThread := next.elim .waiting (.running threadId)
  have howed := sum_map_set (b := thread) (owedBy P p) hw
  have hperm := Multiset.coe_eq_coe.mpr htask.sunk
  have hnext : owedBy P p thread = (next.elim [] (owed P p threadId) : List _) := by
    cases next <;> rfl
  rw [hnext] at howed
  simp only [← Multiset.coe_add] at hperm
  refine add_right_cancel (b := (s.shared.sunk : Multiset (RecordBatch × ℕ)) +
    owedBy P p (.running threadId point)) ?_
  calc (shared.sunk : Multiset (RecordBatch × ℕ)) +
        ((s.threads.set w thread).map (owedBy P p)).sum +
        (s.shared.sunk + owedBy P p (.running threadId point))
      = shared.sunk + (((s.threads.set w thread).map (owedBy P p)).sum +
          owedBy P p (.running threadId point)) + s.shared.sunk := by abel
    _ = shared.sunk + (next.elim [] (owed P p threadId) : List _) +
          (s.shared.sunk + (s.threads.map (owedBy P p)).sum) := by rw [howed]; abel
    _ = _ := by rw [h.sunk, hperm, owedBy]; abel

/-- A step of a task keeps the accounts. -/
theorem Accounts.task {source : σ} {s : ExecState σ τ} (h : Accounts P p source s)
    {w threadId : ℕ} {point : TaskPoint} {shared : Shared σ τ} {next : Option TaskPoint}
    (hw : s.threads[w]? = some (.running threadId point))
    (htask : TaskAccounts P p threadId s.shared point shared next) :
    Accounts P p source { s with
      shared := shared
      threads := s.threads.set w (next.elim .waiting (.running threadId)) } := by
  have hmem := List.mem_of_getElem? hw
  refine {
    source_eq := h.source_eq.trans htask.source_eq
    sunk := h.sunk_task hw htask
    unlimited := fun t point' hpoint' => ?_
    drained := ?_
    queued := h.queued
    counted := ?_
    runs := fun t point' hpoint' => ?_
    takes := fun c hc => ?_
    enqueued := h.enqueued
    waited := fun hmain => absurd (h.waited hmain).2 (h.unfinished hw).ne }
  · rcases running_of_mem_set hpoint' with hold | ⟨-, hnext⟩
    · exact h.unlimited t point' hold
    · exact htask.unlimited point' hnext
  · rintro (⟨t, hcount⟩ | hfinished)
    · rcases running_of_mem_set hcount with hold | ⟨-, hnext⟩
      · exact htask.drained (.inl (h.drained (.inl ⟨t, hold⟩)))
      · exact htask.drained (.inr hnext)
    · refine htask.drained (.inl (h.drained ?_))
      cases next with
      | none => exact .inl ⟨threadId, htask.finished rfl ▸ hmem⟩
      | some point' => exact .inr (by simpa [htask.counted] using hfinished)
  · have hcounted := h.counted
    have hrunning :=
      sum_map_set (b := next.elim .waiting (.running threadId)) isRunning hw
    rw [htask.counted, ← hcounted]
    cases next <;> simp only [Option.elim, isRunning] at hrunning ⊢ <;> omega
  · rcases running_of_mem_set hpoint' with hold | ⟨rfl, -⟩
    · exact h.runs t point' hold
    · exact h.runs t point hmem
  · rcases htask.takes c hc with hold | hc
    · exact h.takes c hold
    · exact hc ▸ h.runs threadId point hmem

/-- The step lemma of `Execute`. -/
theorem Accounts.step {source : σ} {s s' : ExecState σ τ} {a : Action}
    (hlimits : ∀ t ∈ p.transforms, t.isLimit = false) (h : Accounts P p source s)
    (hstep : p.step P s a = some s') : Accounts P p source s' := by
  cases step_cases hstep with
  | enqueue hlt =>
      refine { h with queued := ?_, enqueued := hlt, waited := fun hmain => ?_ }
      · rw [← List.append_assoc, List.range_succ]
        exact h.queued.append_right _
      · exact absurd (h.waited hmain).1 hlt.ne
  | wakeUp henq hfinished _ => exact { h with waited := fun _ => ⟨henq, hfinished⟩ }
  | finalize _ _ _ => exact { h with }
  | start hw htasks => exact h.start hw htasks
  | task hw htask =>
      exact h.task hw (htask.accounts hlimits (h.unlimited _ _ (List.mem_of_getElem? hw)))

/-- The accounts balance where `Execute` starts. -/
theorem accounts_init (source : σ) (sink : τ) (poolSize : ℕ) :
    Accounts P p source (init source sink poolSize) where
  source_eq := rfl
  sunk := by simp [init, owedBy]
  unlimited := by simp [init]
  drained := by simp [init]
  queued := .refl _
  counted := by simp [init, isRunning]
  runs := by simp [init]
  takes := by simp [init]
  enqueued := Nat.zero_le _
  waited := by simp [init]

/-- **Every source batch is processed exactly once before `Finalize`.** In every run of a pipeline
without `Limit`, once the main thread has been woken up to call `Finalize`: the batches taken are
the batches of the source in order; the batches sunk are, as a multiset with their thread ids, the
non-empty results of the transform chain for the batches taken, each sunk by the task that took the
batch; every task was started exactly once and none is queued or running; and no step other than
`Finalize` can follow, so no `Sink` comes later. -/
theorem processes_once (hlimits : ∀ t ∈ p.transforms, t.isLimit = false) (hn : 0 < p.numThreads)
    {source : σ} {sink : τ} {poolSize : ℕ} {as : List Action} {s : ExecState σ τ}
    (hrun : run (p.step P) (init source sink poolSize) as = some s) (hmain : s.finalizing = true) :
    s.shared.taken.map Prod.fst = p.source.pending source ∧
      s.shared.sunk.Perm (s.shared.taken.filterMap (deliver P p.transforms)) ∧
      (∀ c ∈ s.shared.taken, c.2 < p.numThreads) ∧
      s.started.Perm (List.range p.numThreads) ∧ s.tasks = [] ∧
      (∀ thread ∈ s.threads, thread = .waiting) ∧
      ∀ a, a ≠ .finalize → p.step P s a = none := by
  have h : Accounts P p source s :=
    run_invariant (fun s a s' h hstep => Accounts.step hlimits h hstep)
      (accounts_init source sink poolSize) hrun
  obtain ⟨henq, hfinished⟩ := h.waited hmain
  have hcounted := h.counted
  have hlength := h.queued.length_eq
  rw [List.length_append, List.length_range] at hlength
  have htasks : s.tasks = [] := List.eq_nil_of_length_eq_zero (by omega)
  have hstarted : s.started.Perm (List.range p.numThreads) := by
    simpa [htasks, henq] using h.queued
  have hwaiting : ∀ thread ∈ s.threads, thread = .waiting := by
    intro thread hthread
    obtain ⟨w, hw⟩ := List.getElem?_of_mem hthread
    cases thread with
    | waiting => rfl
    | running threadId point => exact absurd hfinished (h.unfinished hw).ne
  have hsunk : (s.threads.map (owedBy P p)).sum = 0 :=
    List.sum_eq_zero fun x hx => by
      obtain ⟨thread, hthread, rfl⟩ := List.mem_map.mp hx
      rw [hwaiting thread hthread, owedBy]
  have hdrained := h.drained (.inr (hfinished ▸ hn))
  refine ⟨?_, ?_, ?_, hstarted, htasks, hwaiting, ?_⟩
  · rw [h.source_eq, hdrained, List.append_nil]
  · have hsum := h.sunk
    rwa [hsunk, add_zero, Multiset.coe_eq_coe] at hsum
  · intro c hc
    exact List.mem_range.mp (hstarted.mem_iff.mp (h.takes c hc))
  · intro a ha
    cases hstep : p.step P s a with
    | none => rfl
    | some s' =>
        cases step_cases hstep with
        | enqueue hlt => exact absurd henq hlt.ne
        | wakeUp _ _ hmain' => simp [hmain] at hmain'
        | finalize _ _ _ => exact absurd rfl ha
        | start _ htasks' => simp [htasks] at htasks'
        | task hw _ => simpa using hwaiting _ (List.mem_of_getElem? hw)

/-- Two tasks over two chunks, one of which the filter empties. -/
theorem processes_once_two_tasks :
    let column := fun chunk : ℕ => Column.ofValues .int32 [.int chunk]
    let p : Pipeline ScanOperator (List RecordBatch) :=
      { source := ScanOperator.source fun _ chunk => some (column chunk)
        transforms := [.filter (.notEq .int32 0 (.int 0))], sink := resultSink, numThreads := 2 }
    let source : ScanOperator := ⟨⟨[⟨ascii "a", .int32, [0, 4], [4, 4]⟩], 2⟩, [0], 2, 0, false⟩
    let steps := [.enqueue, .enqueue] ++
      [0, 1, 0, 1, 0, 1, 1, 1, 0, 0, 1, 1].map .thread ++ [.wakeUp]
    ∃ s, run (p.step Platform.integral) (init source [] 2) steps = some s ∧
      s.finalizing = true ∧ s.shared.taken.map Prod.fst = p.source.pending source ∧
      s.shared.sunk.Perm (s.shared.taken.filterMap (deliver Platform.integral p.transforms)) ∧
      s.shared.sunk = [(⟨1, some [0], [column 1]⟩, 0)] := by
  intro column p source steps
  have hrun : (run (p.step Platform.integral) (init source [] 2) steps).map
      (fun s => (s.finalizing, s.shared.sunk)) = some (true, [(⟨1, some [0], [column 1]⟩, 0)]) := by
    decide
  obtain ⟨s, hs, hsunk⟩ := Option.map_eq_some_iff.mp hrun
  obtain ⟨hmain, hsunk⟩ := Prod.mk.inj hsunk
  have h := processes_once (by decide) (by decide) hs hmain
  exact ⟨s, hs, hmain, h.1, h.2.1, hsunk⟩

end Pipeline

end ColumnarEngine
