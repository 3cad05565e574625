import ColumnarEngine.Exec.Scan

/-!
# Every sunk batch went through every transform

The batch a task holds at position `i` is the result of the transforms before `i` on a batch taken
from the source; a task that leaves the loop at the end of the list sinks the result of all of them.
`IsPipelineDone` makes a task leave earlier: a batch that passed a `Limit` whose flag is set is sunk
as it is, without the transforms behind the `Limit`. `sunk_chained` is about the runs in which that
does not happen, and `limit_skips_filter` is one in which it does.
-/

namespace ColumnarEngine

open Found

namespace Pipeline

variable {σ τ : Type*} {P : Platform} {p : Pipeline σ τ}

/-- The task of a thread took a batch that the transforms turn into this one. -/
def FromTaken (P : Platform) (taken : List (RecordBatch × ℕ)) (threadId : ℕ)
    (ts : List TransformOperator) (batch : RecordBatch) : Prop :=
  ∃ b₀, (b₀, threadId) ∈ taken ∧ Chain P ts b₀ batch

/-- What is known of the batch a task holds. -/
def PointChained (P : Platform) (p : Pipeline σ τ) (taken : List (RecordBatch × ℕ)) (threadId : ℕ) :
    TaskPoint → Prop
  | .execute i batch => FromTaken P taken threadId (p.transforms.take i) batch
  | .storeDone i result => i < p.transforms.length ∧
      ∀ batch, result = some batch → FromTaken P taken threadId (p.transforms.take (i + 1)) batch
  | .isPipelineDone i batch => i < p.transforms.length ∧
      FromTaken P taken threadId (p.transforms.take (i + 1)) batch
  | .sink batch _ => FromTaken P taken threadId p.transforms batch
  | .getData | .countFinished => True

/-- The branch that is not to be taken: no task finds its pipeline done before the last
transform. -/
def StopsAtLast (p : Pipeline σ τ) (s : ExecState σ τ) (a : Action) : Prop :=
  ∀ w threadId i batch, a = .thread w →
    s.threads[w]? = some (.running threadId (.isPipelineDone i batch)) →
    i + 1 < p.transforms.length → p.isPipelineDone s.shared i = false

section points

variable {taken taken' : List (RecordBatch × ℕ)} {threadId : ℕ}

theorem FromTaken.mono (hsub : taken ⊆ taken') {ts : List TransformOperator} {batch : RecordBatch}
    (h : FromTaken P taken threadId ts batch) : FromTaken P taken' threadId ts batch := by
  obtain ⟨b₀, hb₀, hchain⟩ := h
  exact ⟨b₀, hsub hb₀, hchain⟩

/-- More batches taken change nothing for the batches at hand. -/
theorem PointChained.mono (hsub : taken ⊆ taken') {point : TaskPoint}
    (h : PointChained P p taken threadId point) : PointChained P p taken' threadId point := by
  cases point with
  | execute i batch => exact FromTaken.mono hsub h
  | storeDone i result => exact ⟨h.1, fun batch hb => (h.2 batch hb).mono hsub⟩
  | isPipelineDone i batch => exact ⟨h.1, h.2.mono hsub⟩
  | sink batch stop => exact FromTaken.mono hsub h
  | getData | countFinished => trivial

theorem pointChained_afterTransforms {batch : RecordBatch} (stop : Bool)
    (h : FromTaken P taken threadId p.transforms batch) :
    PointChained P p taken threadId (afterTransforms batch stop) := by
  unfold afterTransforms
  split_ifs
  · exact h
  · trivial
  · trivial

theorem pointChained_enterTransform {i : ℕ} {batch : RecordBatch}
    (h : FromTaken P taken threadId (p.transforms.take i) batch) :
    PointChained P p taken threadId (p.enterTransform i batch) := by
  unfold enterTransform
  split_ifs with hi
  · exact h
  · rw [List.take_of_length_le (not_lt.mp hi)] at h
    exact pointChained_afterTransforms false h

theorem pointChained_afterExecute {i : ℕ} {result : Option RecordBatch}
    (hi : i < p.transforms.length)
    (h : ∀ batch, result = some batch →
      FromTaken P taken threadId (p.transforms.take (i + 1)) batch) :
    PointChained P p taken threadId (afterExecute i result) := by
  cases result with
  | none => trivial
  | some batch =>
      dsimp only [afterExecute]
      split_ifs
      · trivial
      · exact ⟨hi, h batch rfl⟩

/-- `Execute` of one more transform. -/
theorem FromTaken.execute {i : ℕ} {batch : RecordBatch} {t : TransformOperator}
    (h : FromTaken P taken threadId (p.transforms.take i) batch) (ht : p.transforms[i]? = some t)
    {result : Option RecordBatch} (hresult : t.Returns P batch result) :
    ∀ b', result = some b' → FromTaken P taken threadId (p.transforms.take (i + 1)) b' := by
  rintro b' rfl
  obtain ⟨b₀, hb₀, hchain⟩ := h
  rw [List.take_add_one, ht]
  exact ⟨b₀, hb₀, hchain.concat hresult⟩

end points

/-- The invariant of a run from a source: what the tasks hold and what was sunk are results of
batches that were taken, and these come from the source. -/
structure Chained (P : Platform) (p : Pipeline σ τ) (source : σ) (s : ExecState σ τ) : Prop where
  source_eq : p.source.pending source =
    s.shared.taken.map Prod.fst ++ p.source.pending s.shared.source
  points : ∀ threadId point, .running threadId point ∈ s.threads →
    PointChained P p s.shared.taken threadId point
  sunk : ∀ c ∈ s.shared.sunk, FromTaken P s.shared.taken c.2 p.transforms c.1

/-- The step lemma of a task: it keeps what is known of its batch and of the sunk ones. -/
theorem TaskStep.chained {s s' : Shared σ τ} {threadId : ℕ} {point : TaskPoint}
    {next : Option TaskPoint} (h : p.TaskStep P s threadId point s' next)
    (hstop : ∀ i batch, point = .isPipelineDone i batch → i + 1 < p.transforms.length →
      p.isPipelineDone s i = false)
    (hpoint : PointChained P p s.taken threadId point)
    (hsunk : ∀ c ∈ s.sunk, FromTaken P s.taken c.2 p.transforms c.1) :
    s.taken ⊆ s'.taken ∧
      s.taken.map Prod.fst ++ p.source.pending s.source =
        s'.taken.map Prod.fst ++ p.source.pending s'.source ∧
      (∀ point', next = some point' → PointChained P p s'.taken threadId point') ∧
      ∀ c ∈ s'.sunk, FromTaken P s'.taken c.2 p.transforms c.1 := by
  cases h with
  | drained h =>
      refine ⟨List.Subset.refl _, by rw [p.source.pending_eq h]; rfl, ?_, hsunk⟩
      rintro _ ⟨⟩
      trivial
  | @took source batch h =>
      have hsub : s.taken ⊆ s.taken ++ [(batch, threadId)] := List.subset_append_left _ _
      refine ⟨hsub, by rw [p.source.pending_eq h]; simp, ?_, fun c hc => (hsunk c hc).mono hsub⟩
      rintro _ ⟨⟩
      exact pointChained_enterTransform ⟨batch, by simp, .nil batch⟩
  | executed ht hresult =>
      refine ⟨List.Subset.refl _, rfl, ?_, hsunk⟩
      rintro _ ⟨⟩
      exact pointChained_afterExecute (List.getElem?_eq_some_iff.mp ht).1
        (FromTaken.execute hpoint ht hresult)
  | reached ht hresult =>
      refine ⟨List.Subset.refl _, rfl, ?_, hsunk⟩
      rintro _ ⟨⟩
      exact ⟨(List.getElem?_eq_some_iff.mp ht).1, FromTaken.execute hpoint ht hresult⟩
  | storedDone =>
      refine ⟨List.Subset.refl _, rfl, ?_, hsunk⟩
      rintro _ ⟨⟩
      exact pointChained_afterExecute hpoint.1 hpoint.2
  | @stopped i batch hdone =>
      refine ⟨List.Subset.refl _, rfl, ?_, hsunk⟩
      rintro _ ⟨⟩
      -- the flag is set, so this was the last transform
      have hlast : p.transforms.length ≤ i + 1 := by
        by_contra hlt
        simp [hstop i batch rfl (not_le.mp hlt)] at hdone
      have hall := hpoint.2
      rw [List.take_of_length_le hlast] at hall
      exact pointChained_afterTransforms true hall
  | continued hdone =>
      refine ⟨List.Subset.refl _, rfl, ?_, hsunk⟩
      rintro _ ⟨⟩
      exact pointChained_enterTransform hpoint.2
  | @sank batch stop sink h =>
      refine ⟨List.Subset.refl _, rfl, ?_, ?_⟩
      · rintro _ ⟨⟩
        cases stop <;> trivial
      · intro c hc
        rcases List.mem_append.mp hc with hc | hc
        · exact hsunk c hc
        · rw [List.mem_singleton.mp hc]
          exact hpoint
  | counted =>
      refine ⟨List.Subset.refl _, rfl, ?_, hsunk⟩
      rintro _ ⟨⟩

/-- The step lemma of `Execute`. -/
theorem Chained.step {source : σ} {s s' : ExecState σ τ} {a : Action}
    (hstop : p.StopsAtLast s a) (h : Chained P p source s) (hstep : p.step P s a = some s') :
    Chained P p source s' := by
  obtain ⟨hsource, hpoints, hsunk⟩ := h
  cases step_cases hstep with
  | enqueue _ => exact ⟨hsource, hpoints, hsunk⟩
  | wakeUp _ _ _ => exact ⟨hsource, hpoints, hsunk⟩
  | finalize _ _ _ => exact ⟨hsource, hpoints, hsunk⟩
  | start hw _ =>
      refine ⟨hsource, ?_, hsunk⟩
      intro threadId point hmem
      rcases running_of_mem_start hmem with hmem | ⟨rfl, rfl⟩
      · exact hpoints threadId point hmem
      · trivial
  | @task w threadId point shared next hw htask =>
      obtain ⟨hsub, hpending, hnext, hsunk'⟩ := htask.chained
        (fun i batch hpoint => hstop w threadId i batch rfl (hpoint ▸ hw))
        (hpoints threadId point (List.mem_of_getElem? hw)) hsunk
      refine ⟨hsource.trans hpending, ?_, hsunk'⟩
      intro threadId' point' hmem
      rcases running_of_mem_set hmem with hmem | ⟨rfl, hpoint'⟩
      · exact (hpoints threadId' point' hmem).mono hsub
      · exact hnext point' hpoint'

/-- The invariant holds where `Execute` starts. -/
theorem chained_init (source : σ) (sink : τ) (poolSize : ℕ) :
    Chained P p source (init source sink poolSize) := by
  refine ⟨rfl, ?_, fun c hc => by simp [init] at hc⟩
  intro threadId point hmem
  simp [init] at hmem

/-- **No batch bypasses a transform** in a run in which no task finds its pipeline done before the
last transform: every batch sunk by a task is the result of all the transforms, in order, on a batch
of the source that this task has taken. -/
theorem sunk_chained {source : σ} {sink : τ} {poolSize : ℕ} {as : List Action} {s : ExecState σ τ}
    (hstop : MeetsAll (p.step P) p.StopsAtLast (init source sink poolSize) as)
    (hrun : run (p.step P) (init source sink poolSize) as = some s) :
    ∀ c ∈ s.shared.sunk, ∃ b₀ ∈ p.source.pending source,
      (b₀, c.2) ∈ s.shared.taken ∧ Chain P p.transforms b₀ c.1 := by
  have hchained : Chained P p source s :=
    run_invariant_of_meets (fun s a s' hstop h hstep => Chained.step hstop h hstep) hstop
      (chained_init source sink poolSize) hrun
  intro c hc
  obtain ⟨b₀, hb₀, hchain⟩ := hchained.sunk c hc
  refine ⟨b₀, ?_, hb₀, hchain⟩
  rw [hchained.source_eq]
  exact List.mem_append_left _ (List.mem_map_of_mem hb₀)

/-- If every `Limit` is the last transform, no run stops early. -/
theorem stopsAtLast_of_limits_last
    (hlast : ∀ i n, p.transforms[i]? = some (.limit n) → i + 1 = p.transforms.length)
    (s : ExecState σ τ) (a : Action) : p.StopsAtLast s a := by
  intro w threadId i batch _ _ hi
  unfold isPipelineDone
  split
  · next n hn => exact absurd (hlast i n hn) hi.ne
  · rfl

/-- A table of one chunk with the `INT32` column 3, 5, filtered and limited by one thread. -/
def exampleScan : ScanOperator := ⟨⟨[⟨ascii "a", .int32, [0], [8]⟩], 2⟩, [0], 1, 0, false⟩

/-- The column of the one chunk. -/
def exampleColumn : Column := Column.ofValues .int32 [.int 3, .int 5]

/-- A pipeline over this table that keeps the batches. -/
def examplePipeline (transforms : List TransformOperator) :
    Pipeline ScanOperator (List RecordBatch) where
  source := ScanOperator.source fun _ _ => some exampleColumn
  transforms := transforms
  sink := resultSink
  numThreads := 1

/-- The rows equal to 5. -/
def equalsFive : TransformOperator := .filter (.eq .int32 0 (.int 5))

/-- `Filter` before `Limit`: the batch that is sunk has gone through both. -/
theorem sunk_chained_filter_limit :
    let p := examplePipeline [equalsFive, .limit 1]
    let steps := .enqueue :: List.replicate 8 (.thread 0)
    ∃ s, run (p.step Platform.integral) (init exampleScan [] 1) steps = some s ∧
      s.shared.sunk = [(⟨1, some [1], [exampleColumn]⟩, 0)] ∧
      ∀ c ∈ s.shared.sunk, ∃ b₀ ∈ p.source.pending exampleScan,
        (b₀, c.2) ∈ s.shared.taken ∧ Chain Platform.integral p.transforms b₀ c.1 := by
  intro p steps
  have hrun : (run (p.step Platform.integral) (init exampleScan [] 1) steps).map
      (fun s => s.shared.sunk) = some [(⟨1, some [1], [exampleColumn]⟩, 0)] := by decide
  obtain ⟨s, hs, hsunk⟩ := Option.map_eq_some_iff.mp hrun
  refine ⟨s, hs, hsunk, sunk_chained (meetsAll_of_forall (stopsAtLast_of_limits_last ?_) _ _) hs⟩
  intro i n hi
  match i with
  | 0 => simp [p, examplePipeline, equalsFive] at hi
  | 1 => rfl
  | i + 2 => simp [p, examplePipeline] at hi

/-- **`Limit` before `Filter`**: the batch that reaches the limit is sunk without the filter, and
its row 3 does not pass it. -/
theorem limit_skips_filter :
    let p := examplePipeline [.limit 1, equalsFive]
    let steps := .enqueue :: List.replicate 6 (.thread 0)
    ∃ s, run (p.step Platform.integral) (init exampleScan [] 1) steps = some s ∧
      s.shared.sunk = [(⟨1, some [0], [exampleColumn]⟩, 0)] ∧
      (⟨1, some [0], [exampleColumn]⟩ : RecordBatch).rows = [[.int 3]] ∧
      ¬ ∀ c ∈ s.shared.sunk, ∃ b₀ ∈ p.source.pending exampleScan,
        Chain Platform.integral p.transforms b₀ c.1 := by
  intro p steps
  have hrun : (run (p.step Platform.integral) (init exampleScan [] 1) steps).map
      (fun s => s.shared.sunk) = some [(⟨1, some [0], [exampleColumn]⟩, 0)] := by decide
  obtain ⟨s, hs, hsunk⟩ := Option.map_eq_some_iff.mp hrun
  refine ⟨s, hs, hsunk, by decide, ?_⟩
  intro h
  obtain ⟨b₀, hb₀, hchain⟩ := h _ (hsunk ▸ List.mem_singleton_self _)
  obtain rfl : b₀ = ⟨2, none, [exampleColumn]⟩ := List.mem_singleton.mp hb₀
  cases hchain with
  | @cons _ _ _ b₁ _ hlimit hrest =>
      cases hrest with
      | @cons _ _ _ b₂ _ hfilter hnil =>
          cases hnil
          obtain ⟨oldRows, isDone, hcut⟩ := hlimit
          -- the limit returns a batch only as the first row
          have hb₁ : b₁ = ⟨1, some [0], [exampleColumn]⟩ := by
            unfold limitCut at hcut
            dsimp only at hcut
            split_ifs at hcut with hover hwhole
            · simp at hcut
            · exact absurd hwhole (by simp)
            · obtain rfl : oldRows = 0 := by omega
              simpa [eq_comm] using (Prod.mk.inj (Option.some.inj hcut)).1
          subst hb₁
          have hnone : filterExecute Platform.integral (.eq .int32 0 (.int 5))
              ⟨1, some [0], [exampleColumn]⟩ = some none := by decide
          exact absurd (hnone.symm.trans hfilter) (by simp)

end Pipeline

end ColumnarEngine
