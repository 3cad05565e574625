import ColumnarEngine.Exec.SinkCalls
import ColumnarEngine.Query.Chain

/-!
# The rows a pipeline sinks

A pipeline of transforms that are followed by a `Limit`, if there is one. If the transforms keep the
batches of the source well formed, every batch that a task holds suits the transforms still ahead of
it (`Suited`); the sink gets well-formed batches of the last layout. When `Finalize` is called, the
rows sunk are, under any schedule, an arrangement of what becomes of the rows of the source, cut at
the limit (`sinks_rows`); the one batch of a breaker keeps its order (`sinks_rows_of_single`).
-/

namespace ColumnarEngine

open Found

/-- The first rows up to the limit, if there is one. -/
def cut {α : Type*} (limit : Option ℕ) (rows : List α) : List α :=
  limit.elim rows fun n => rows.take n

namespace Pipeline

variable {σ τ : Type*} {P : Platform} {p : Pipeline σ τ} {ts : List TransformOperator}
  {limit : Option ℕ} {types : List ColumnType}

/-- The transforms `ts`, and then a `Limit` if there is one. -/
structure EndsWith (p : Pipeline σ τ) (ts : List TransformOperator) (limit : Option ℕ) : Prop where
  transforms : p.transforms = ts ++ (limit.map TransformOperator.limit).toList
  unlimited : ∀ t ∈ ts, t.isLimit = false

/-- Only the last transform can be a `Limit`. -/
theorem EndsWith.last (h : p.EndsWith ts limit) {i n : ℕ}
    (hi : p.transforms[i]? = some (.limit n)) : i + 1 = p.transforms.length := by
  rw [h.transforms] at hi ⊢
  have hge : ts.length ≤ i := by
    by_contra hlt
    rw [List.getElem?_append_left (not_le.mp hlt)] at hi
    have hlimit := h.unlimited _ (List.mem_of_getElem? hi)
    simp [TransformOperator.isLimit] at hlimit
  have hlt := (List.getElem?_eq_some_iff.mp hi).1
  cases limit with
  | none => simp at hlt; omega
  | some m =>
      simp only [Option.map_some, Option.toList_some, List.length_append,
        List.length_singleton] at hlt ⊢
      omega

/-! ## The batches that tasks hold -/

/-- The batch suits the transforms from position `i` on; `types` are those of the source's
columns. -/
structure Suits (P : Platform) (p : Pipeline σ τ) (types : List ColumnType) (i : ℕ)
    (batch : RecordBatch) : Prop where
  keeps : KeepsWellFormed P (p.transforms.drop i) batch
  types : 0 < batch.numRows → batch.types = typesAfter types (p.transforms.take i)

/-- The batch can be sunk. -/
def Sinkable (p : Pipeline σ τ) (types : List ColumnType) (batch : RecordBatch) : Prop :=
  batch.WellFormed ∧ batch.types = typesAfter types p.transforms

/-- What a task holds suits what is ahead of it. -/
def PointSuits (P : Platform) (p : Pipeline σ τ) (types : List ColumnType) : TaskPoint → Prop
  | .execute i batch => i < p.transforms.length ∧ p.Suits P types i batch
  | .storeDone i result =>
      ∀ batch, result = some batch → 0 < batch.numRows → p.Suits P types (i + 1) batch
  | .isPipelineDone i batch => 0 < batch.numRows ∧ p.Suits P types (i + 1) batch
  | .sink batch _ => p.Sinkable types batch
  | .getData | .countFinished => True

theorem Suits.sinkable {i : ℕ} {batch : RecordBatch} (h : p.Suits P types i batch)
    (hi : p.transforms.length ≤ i) (hpos : 0 < batch.numRows) : p.Sinkable types batch := by
  refine ⟨h.keeps.wellFormed, ?_⟩
  rw [h.types hpos, List.take_of_length_le hi]

/-- A transform returns rows only of a batch with rows. -/
theorem numRows_pos_of_returns {t : TransformOperator} {b b' : RecordBatch}
    (h : t.Returns P b (some b')) (hpos : 0 < b'.numRows) : 0 < b.numRows := by
  cases hlimit : t.isLimit with
  | false =>
      by_contra hzero
      have hempty := TransformOperator.numRows_of_empty (Nat.eq_zero_of_not_pos hzero)
        ((TransformOperator.returns_iff_execute hlimit).mp h)
      omega
  | true =>
      cases t with
      | filter _ | scalar _ | drop _ | reorder _ => simp [TransformOperator.isLimit] at hlimit
      | limit n =>
          obtain ⟨oldRows, isDone, hcut⟩ := h
          unfold limitCut at hcut
          dsimp only at hcut
          split_ifs at hcut with hover hwhole
          · simp at hcut
          · obtain ⟨hb, -⟩ := Prod.mk.inj (Option.some.inj hcut)
            exact Option.some.inj hb ▸ hpos
          · omega

/-- What a transform returns suits the next ones. -/
theorem Suits.returns (hends : p.EndsWith ts limit) {i : ℕ} {t : TransformOperator}
    {batch : RecordBatch} {result : Option RecordBatch} (h : p.Suits P types i batch)
    (ht : p.transforms[i]? = some t) (hresult : t.Returns P batch result) :
    ∀ b', result = some b' → 0 < b'.numRows → p.Suits P types (i + 1) b' := by
  rintro b' rfl hpos
  obtain ⟨hlt, rfl⟩ := List.getElem?_eq_some_iff.mp ht
  have hkeeps := h.keeps
  rw [List.drop_eq_getElem_cons hlt] at hkeeps
  obtain ⟨htyped, hfits⟩ := hkeeps.head
  obtain ⟨-, hgood⟩ := TransformOperator.returns_wellFormed (P := P) hkeeps.1 htyped hfits
  obtain ⟨hwf, htypes⟩ := hgood _ hresult b' rfl
  refine ⟨?_, fun _ => ?_⟩
  · cases hop : p.transforms[i] with
    | limit n =>
        -- a `Limit` is the last one
        have hlast := hends.last (ht.trans (congrArg some hop))
        rw [List.drop_of_length_le hlast.ge]
        exact hwf
    | filter _ | scalar _ | drop _ | reorder _ =>
        rw [hop] at hresult hkeeps
        exact hkeeps.2.2.2 b' ⟨hpos, hresult⟩
  · rw [htypes, h.types (numRows_pos_of_returns hresult hpos), List.take_add_one, ht, typesAfter,
      typesAfter, Option.toList_some, List.foldl_append]
    rfl

theorem pointSuits_afterTransforms {batch : RecordBatch} (stop : Bool)
    (h : 0 < batch.numRows → p.Sinkable types batch) :
    PointSuits P p types (afterTransforms batch stop) := by
  unfold afterTransforms
  split_ifs with hpos
  · exact h hpos
  · trivial
  · trivial

theorem pointSuits_enterTransform {i : ℕ} {batch : RecordBatch} (h : p.Suits P types i batch) :
    PointSuits P p types (p.enterTransform i batch) := by
  unfold enterTransform
  split_ifs with hi
  · exact ⟨hi, h⟩
  · exact pointSuits_afterTransforms false (h.sinkable (not_lt.mp hi))

theorem pointSuits_afterExecute {i : ℕ} {result : Option RecordBatch}
    (h : ∀ batch, result = some batch → 0 < batch.numRows → p.Suits P types (i + 1) batch) :
    PointSuits P p types (afterExecute i result) := by
  cases result with
  | none => trivial
  | some batch =>
      dsimp only [afterExecute]
      split_ifs with hzero
      · trivial
      · exact ⟨Nat.pos_of_ne_zero hzero, h batch rfl (Nat.pos_of_ne_zero hzero)⟩

/-- Every batch that is still to come, on its way or sunk suits the transforms ahead of it. -/
structure Suited (P : Platform) (p : Pipeline σ τ) (types : List ColumnType)
    (s : ExecState σ τ) : Prop where
  pending : ∀ b ∈ p.source.pending s.shared.source, p.Suits P types 0 b
  points : ∀ threadId point, .running threadId point ∈ s.threads → p.PointSuits P types point
  sunk : ValidCalls (typesAfter types p.transforms) p.numThreads s.shared.sunk

/-- The step lemma of a task. -/
theorem TaskStep.suited (hends : p.EndsWith ts limit) {s s' : Shared σ τ} {threadId : ℕ}
    {point : TaskPoint} {next : Option TaskPoint} (h : p.TaskStep P s threadId point s' next)
    (hid : threadId < p.numThreads)
    (hpending : ∀ b ∈ p.source.pending s.source, p.Suits P types 0 b)
    (hpoint : p.PointSuits P types point)
    (hsunk : ValidCalls (typesAfter types p.transforms) p.numThreads s.sunk) :
    (∀ b ∈ p.source.pending s'.source, p.Suits P types 0 b) ∧
      (∀ point', next = some point' → p.PointSuits P types point') ∧
      ValidCalls (typesAfter types p.transforms) p.numThreads s'.sunk := by
  cases h with
  | drained h =>
      refine ⟨?_, by rintro _ ⟨⟩; trivial, hsunk⟩
      rwa [p.source.pending_eq h] at hpending
  | @took source batch h =>
      rw [p.source.pending_eq h] at hpending
      refine ⟨fun b hb => hpending b (List.mem_append_right _ hb), ?_, hsunk⟩
      rintro _ ⟨⟩
      exact pointSuits_enterTransform (hpending batch (by simp))
  | executed ht hresult =>
      refine ⟨hpending, ?_, hsunk⟩
      rintro _ ⟨⟩
      exact pointSuits_afterExecute (Suits.returns hends hpoint.2 ht hresult)
  | reached ht hresult =>
      refine ⟨hpending, ?_, hsunk⟩
      rintro _ ⟨⟩
      exact Suits.returns hends hpoint.2 ht hresult
  | storedDone =>
      refine ⟨hpending, ?_, hsunk⟩
      rintro _ ⟨⟩
      exact pointSuits_afterExecute hpoint
  | @stopped i batch hdone =>
      refine ⟨hpending, ?_, hsunk⟩
      rintro _ ⟨⟩
      have hlast : p.transforms.length ≤ i + 1 := by
        unfold isPipelineDone at hdone
        split at hdone
        · next n hn => exact (hends.last hn).ge
        · cases hdone
      exact pointSuits_afterTransforms true (hpoint.2.sinkable hlast)
  | continued hdone =>
      refine ⟨hpending, ?_, hsunk⟩
      rintro _ ⟨⟩
      exact pointSuits_enterTransform hpoint.2
  | @sank batch stop sink h =>
      refine ⟨hpending, ?_, ?_⟩
      · rintro _ ⟨⟩
        cases stop <;> trivial
      · intro c hc
        rcases List.mem_append.mp hc with hc | hc
        · exact hsunk c hc
        · rw [List.mem_singleton.mp hc]
          exact ⟨hpoint.1, hpoint.2, hid⟩
  | counted => exact ⟨hpending, by rintro _ ⟨⟩, hsunk⟩

/-- The step lemma of `Execute`. -/
theorem Suited.step (hends : p.EndsWith ts limit) {s s' : ExecState σ τ} {a : Action}
    (hsched : Scheduled p s) (h : p.Suited P types s) (hstep : p.step P s a = some s') :
    p.Suited P types s' := by
  cases step_cases hstep with
  | enqueue _ | wakeUp _ _ _ | finalize _ _ _ => exact ⟨h.pending, h.points, h.sunk⟩
  | start hw _ =>
      refine ⟨h.pending, ?_, h.sunk⟩
      intro threadId point hmem
      rcases running_of_mem_start hmem with hmem | ⟨rfl, rfl⟩
      · exact h.points threadId point hmem
      · trivial
  | @task w threadId point shared next hw htask =>
      have hmem := List.mem_of_getElem? hw
      obtain ⟨hpending, hnext, hsunk⟩ := htask.suited hends (hsched.threadId_lt hmem) h.pending
        (h.points threadId point hmem) h.sunk
      refine ⟨hpending, ?_, hsunk⟩
      intro threadId' point' hmem'
      rcases running_of_mem_set hmem' with hmem' | ⟨rfl, hpoint'⟩
      · exact h.points threadId' point' hmem'
      · exact hnext point' hpoint'

variable {source : σ} {sink : τ} {poolSize : ℕ} {as : List Action} {s : ExecState σ τ}

/-- **Every run** keeps what suits. -/
theorem suited_of_run (hends : p.EndsWith ts limit)
    (hpending : ∀ b ∈ p.source.pending source, p.Suits P types 0 b)
    (hrun : run (p.step P) (init source sink poolSize) as = some s) : p.Suited P types s := by
  have h : Scheduled p s ∧ p.Suited P types s := by
    refine run_invariant (I := fun s : ExecState σ τ => Scheduled p s ∧ p.Suited P types s) ?_ ?_
      hrun
    · rintro s a s' ⟨hsched, h⟩ hstep
      exact ⟨hsched.step hstep, h.step hends hsched hstep⟩
    · refine ⟨.init source sink poolSize, hpending, ?_, ?_⟩
      · simp [init]
      · simp [init, ValidCalls]
  exact h.2

/-! ## The rows sunk -/

/-- The rows of the calls, in order, as the rows sunk. -/
theorem coe_sunkRows (s : Shared σ τ) :
    (ColumnarEngine.sunkRows s.sunk : Multiset Row) = sunkRows s := by
  rw [sunkRows, ColumnarEngine.sunkRows]
  induction s.sunk with
  | nil => rfl
  | cons c calls ih =>
      rw [List.flatMap_cons, ← Multiset.coe_add, ih, List.map_cons, List.sum_cons]

/-- `num_rows` counts the rows of well-formed calls. -/
theorem length_sunkRows {n : ℕ} {s : Shared σ τ} (h : ValidCalls types n s.sunk) :
    (ColumnarEngine.sunkRows s.sunk).length = rowsSunk s := by
  rw [rowsSunk, ColumnarEngine.sunkRows, List.length_flatMap]
  congr 1
  exact List.map_congr_left fun c hc => (h c hc).1.length_rows

/-- A part of a collection, as many as the limit allows, is a cut of an arrangement. -/
theorem exists_arrangement {α : Type*} {l all : List α} {n : ℕ}
    (hsub : (l : Multiset α) ≤ all) (hlen : l.length = min n all.length) :
    ∃ arranged : List α, arranged.Perm all ∧ l = arranged.take n := by
  obtain ⟨rest, hrest⟩ := Multiset.le_iff_exists_add.mp hsub
  induction rest using Quotient.inductionOn with
  | h rest =>
      rw [Multiset.quot_mk_to_coe, Multiset.coe_add, Multiset.coe_eq_coe] at hrest
      refine ⟨l ++ rest, hrest.symm, ?_⟩
      have htotal := hrest.length_eq
      rw [List.length_append] at htotal
      by_cases hle : n ≤ all.length
      · rw [List.take_left' (by omega)]
      · obtain rfl : rest = [] := List.length_eq_zero_iff.mp (by omega)
        rw [List.append_nil, List.take_of_length_le (by omega)]

theorem KeepsWellFormed.left {ts us : List TransformOperator} {b : RecordBatch}
    (h : KeepsWellFormed P (ts ++ us) b) : KeepsWellFormed P ts b := by
  induction ts generalizing b with
  | nil => exact KeepsWellFormed.wellFormed h
  | cons t ts ih => exact ⟨h.1, h.2.1, h.2.2.1, fun b' hb' => ih (h.2.2.2 b' hb')⟩

theorem Suits.keeps_left (hends : p.EndsWith ts limit) {b : RecordBatch}
    (h : p.Suits P types 0 b) : KeepsWellFormed P ts b := by
  have hkeeps := h.keeps
  rw [List.drop_zero, hends.transforms] at hkeeps
  exact KeepsWellFormed.left hkeeps

/-- The rows that are delivered for some batches. -/
theorem sunkRows_deliver (hts : ∀ t ∈ ts, t.isLimit = false) {taken : List (RecordBatch × ℕ)}
    (hkeeps : ∀ b ∈ taken.map Prod.fst, KeepsWellFormed P ts b) :
    ColumnarEngine.sunkRows (taken.filterMap (deliver P ts)) =
      ((taken.map Prod.fst).flatMap RecordBatch.rows).filterMap (onRows P ts) := by
  have hrows : ∀ c ∈ taken, ((deliver P ts c).toList.flatMap fun c => c.1.rows) =
      rowList (chainResult P ts c.1) := by
    intro c hc
    obtain ⟨hlist, hcount⟩ := rowList_chainResult hts (hkeeps c.1 (List.mem_map_of_mem hc))
    rw [← hlist, rowsBehind] at hcount
    unfold deliver
    cases hresult : chainResult P ts c.1 with
    | none => rfl
    | some b =>
        rw [hresult, numRowsOf, Option.elim_some] at hcount
        by_cases hpos : 0 < b.numRows
        · simp [Option.filter, hpos, rowList]
        · have hzero : (rowList (some b)).length = 0 := by omega
          simp [Option.filter, hpos, List.length_eq_zero_iff.mp hzero]
  rw [← flatMap_rowList_chainResult hts hkeeps, List.flatMap_map, ← List.flatMap_congr hrows,
    ColumnarEngine.sunkRows, List.filterMap_eq_flatMap_toList, List.flatMap_assoc]

/-- The rows of the source behind the transforms. -/
def sourceRows (P : Platform) (p : Pipeline σ τ) (ts : List TransformOperator) (source : σ) :
    List Row :=
  ((p.source.pending source).flatMap RecordBatch.rows).filterMap (onRows P ts)

/-- **What a pipeline sinks, under any schedule**: if every batch of the source suits the
transforms, then after the last task the rows sunk are an arrangement of what becomes of the rows of
the source, up to the limit. -/
theorem sinks_rows (hends : p.EndsWith ts limit) (hn : 0 < p.numThreads)
    (hpending : ∀ b ∈ p.source.pending source, p.Suits P types 0 b)
    (hfits : (p.sourceRows P ts source).length < 2 ^ 64)
    (hrun : run (p.step P) (init source sink poolSize) as = some s) (hmain : s.finalizing = true) :
    ∃ arranged : List Row, arranged.Perm (p.sourceRows P ts source) ∧
      ColumnarEngine.sunkRows s.shared.sunk = cut limit arranged := by
  have hkeeps := fun b hb => (hpending b hb).keeps_left hends
  have hvalid := (suited_of_run hends hpending hrun).sunk
  cases hlimit : limit with
  | none =>
      have htransforms : p.transforms = ts := by
        rw [hends.transforms, hlimit]
        exact List.append_nil ts
      obtain ⟨htaken, hsunk, -⟩ := processes_once (htransforms ▸ hends.unlimited) hn hrun hmain
      refine ⟨_, ?_, rfl⟩
      refine (hsunk.flatMap_right _).trans (.of_eq ?_)
      rw [← htaken] at hkeeps
      rw [sourceRows, ← htaken, htransforms]
      exact sunkRows_deliver hends.unlimited hkeeps
  | some n =>
      have hlast : EndsWithLimit p ts n := ⟨by rw [hends.transforms, hlimit]; rfl, hends.unlimited⟩
      have htotal := totalBehind_eq hends.unlimited hkeeps
      obtain ⟨hsub, -, hexact⟩ := limit_sinks hlast (htotal ▸ hfits) hrun
      rw [rowsAfter_eq hends.unlimited hkeeps, ← coe_sunkRows] at hsub
      apply exists_arrangement hsub
      rw [length_sunkRows hvalid, hexact hn hmain, htotal]

/-- The example table, filtered and then limited. -/
theorem suits_filter_limit {b : RecordBatch}
    (hb : b ∈ (examplePipeline [equalsFive, .limit 1]).source.pending exampleScan) :
    (examplePipeline [equalsFive, .limit 1]).Suits Platform.integral [.int32] 0 b := by
  obtain rfl : b = ⟨2, none, [exampleColumn]⟩ := List.mem_singleton.mp hb
  have hplaced : Placed [.int32] false [equalsFive, .limit 1] :=
    ⟨rfl, trivial, trivial, trivial, trivial⟩
  exact ⟨hplaced.keepsWellFormed (by decide) fun _ => rfl, fun _ => rfl⟩

/-- One row is left behind the filter. -/
theorem sinks_rows_filter_limit :
    let p := examplePipeline [equalsFive, .limit 1]
    let steps := .enqueue :: List.replicate 9 (.thread 0) ++ [.wakeUp]
    ∃ s arranged, run (p.step Platform.integral) (init exampleScan [] 1) steps = some s ∧
      arranged.Perm [[Value.int 5]] ∧
      ColumnarEngine.sunkRows s.shared.sunk = cut (some 1) arranged := by
  intro p steps
  have hrun : (run (p.step Platform.integral) (init exampleScan [] 1) steps).map
      (fun s => s.finalizing) = some true := by decide
  obtain ⟨s, hs, hmain⟩ := Option.map_eq_some_iff.mp hrun
  have hends : p.EndsWith [equalsFive] (some 1) := ⟨rfl, by decide⟩
  obtain ⟨arranged, hperm, hsunk⟩ :=
    sinks_rows hends (by decide) (fun b hb => suits_filter_limit hb) (by decide) hs hmain
  exact ⟨s, arranged, hs, hperm, hsunk⟩

/-! ## One batch -/

/-- A task that holds a batch. -/
def holdsBatch : TaskPoint → ℕ
  | .execute _ _ | .storeDone _ _ | .isPipelineDone _ _ | .sink _ _ => 1
  | .getData | .countFinished => 0

/-- No task sinks more batches than it takes. -/
structure SinksOnce (p : Pipeline σ τ) (source : σ) (s : ExecState σ τ) : Prop where
  source_eq : p.source.pending source =
    s.shared.taken.map Prod.fst ++ p.source.pending s.shared.source
  sunk : s.shared.sunk.length + (s.threads.map (ofThread holdsBatch)).sum ≤ s.shared.taken.length

theorem holdsBatch_le (point : TaskPoint) : holdsBatch point ≤ 1 := by
  cases point <;> simp [holdsBatch]

/-- The step lemma of a task. -/
theorem TaskStep.sinksOnce {s s' : Shared σ τ} {threadId : ℕ} {point : TaskPoint}
    {next : Option TaskPoint} (h : p.TaskStep P s threadId point s' next) :
    s.taken.map Prod.fst ++ p.source.pending s.source =
        s'.taken.map Prod.fst ++ p.source.pending s'.source ∧
      s'.sunk.length + next.elim 0 holdsBatch + s.taken.length ≤
        s.sunk.length + holdsBatch point + s'.taken.length := by
  cases h with
  | drained h => exact ⟨by rw [p.source.pending_eq h]; rfl, le_rfl⟩
  | @took source batch h =>
      have hle := holdsBatch_le (p.enterTransform 0 batch)
      refine ⟨by rw [p.source.pending_eq h]; simp, ?_⟩
      rw [List.length_append, List.length_singleton]
      show s.sunk.length + holdsBatch _ + _ ≤ s.sunk.length + 0 + _
      omega
  | @executed i batch t result limits _ _ =>
      exact ⟨rfl, Nat.add_le_add_right (Nat.add_le_add_left (holdsBatch_le _) _) _⟩
  | reached _ _ => exact ⟨rfl, le_rfl⟩
  | @storedDone i result limits =>
      exact ⟨rfl, Nat.add_le_add_right (Nat.add_le_add_left (holdsBatch_le _) _) _⟩
  | @stopped i batch _ =>
      exact ⟨rfl, Nat.add_le_add_right (Nat.add_le_add_left (holdsBatch_le _) _) _⟩
  | @continued i batch _ =>
      exact ⟨rfl, Nat.add_le_add_right (Nat.add_le_add_left (holdsBatch_le _) _) _⟩
  | @sank batch stop sink _ =>
      refine ⟨rfl, ?_⟩
      cases stop <;> simp [holdsBatch]
  | counted => exact ⟨rfl, le_rfl⟩

/-- The step lemma of `Execute`. -/
theorem SinksOnce.step {s s' : ExecState σ τ} {a : Action} (h : SinksOnce p source s)
    (hstep : p.step P s a = some s') : SinksOnce p source s' := by
  cases step_cases hstep with
  | enqueue _ | wakeUp _ _ _ | finalize _ _ _ => exact ⟨h.source_eq, h.sunk⟩
  | @start w threadId tasks hw _ =>
      have hset := sum_map_set (b := .running threadId .getData) (ofThread holdsBatch) hw
      have hsunk := h.sunk
      refine ⟨h.source_eq, ?_⟩
      simp only [ofThread, holdsBatch] at hset ⊢
      omega
  | @task w threadId point shared next hw htask =>
      obtain ⟨hsource, hcount⟩ := htask.sinksOnce
      have hset :=
        sum_map_set (b := next.elim .waiting (.running threadId)) (ofThread holdsBatch) hw
      have hnext : ofThread holdsBatch (next.elim .waiting (.running threadId)) =
          next.elim 0 holdsBatch := by cases next <;> rfl
      have hsunk := h.sunk
      refine ⟨h.source_eq.trans hsource, ?_⟩
      rw [hnext] at hset
      simp only [ofThread] at hset ⊢
      omega

/-- At most as many batches are sunk as the source has. -/
theorem length_sunk_le (hrun : run (p.step P) (init source sink poolSize) as = some s) :
    s.shared.sunk.length ≤ (p.source.pending source).length := by
  have h : SinksOnce p source s := by
    refine run_invariant (fun s a s' h hstep => SinksOnce.step h hstep) ⟨rfl, ?_⟩ hrun
    simp [init, ofThread]
  have hsunk := h.sunk
  rw [h.source_eq, List.length_append, List.length_map]
  omega

/-- A `Limit` keeps the first rows. -/
theorem rows_prefix_of_limitCut {n oldRows : ℕ} {b b' : RecordBatch} {isDone : Bool}
    (h : limitCut n oldRows b = some (some b', isDone)) : b'.rows <+: b.rows := by
  unfold limitCut at h
  dsimp only at h
  split_ifs at h with hover hwhole
  · cases h
  · obtain ⟨hb, -⟩ := Prod.mk.inj (Option.some.inj h)
    exact Option.some.inj hb ▸ List.prefix_refl _
  · cases hs : b.selectionVector with
    | none =>
        rw [hs] at h
        obtain ⟨hb, -⟩ := Prod.mk.inj (Option.some.inj h)
        obtain rfl := Option.some.inj hb
        rw [RecordBatch.rows, RecordBatch.rows, RecordBatch.selected, RecordBatch.selected, hs]
        have hrange : List.range (n - oldRows) = (List.range b.numRows).take (n - oldRows) := by
          rw [List.take_range, min_eq_left (not_le.mp hwhole).le]
        exact (hrange ▸ List.take_prefix _ _ : List.range (n - oldRows) <+: _).map _
    | some sel =>
        rw [hs] at h
        dsimp only at h
        split_ifs at h
        obtain ⟨hb, -⟩ := Prod.mk.inj (Option.some.inj h)
        obtain rfl := Option.some.inj hb
        rw [RecordBatch.rows, RecordBatch.rows, RecordBatch.selected, RecordBatch.selected, hs]
        exact (List.take_prefix _ _).map _

/-- A chain ends with its last transform. -/
theorem chain_concat {t : TransformOperator} {b b' : RecordBatch}
    (h : Chain P (ts ++ [t]) b b') : ∃ b₁, Chain P ts b b₁ ∧ t.Returns P b₁ (some b') := by
  induction ts generalizing b with
  | nil =>
      obtain _ | ⟨hreturns, _ | _⟩ := h
      exact ⟨b, .nil b, hreturns⟩
  | cons t' ts ih =>
      obtain _ | ⟨hreturns, hrest⟩ := h
      obtain ⟨b₂, hchain, hlast⟩ := ih hrest
      exact ⟨b₂, .cons hreturns hchain, hlast⟩

/-- What comes out at the end of a chain for a batch are its first rows behind the transforms. -/
theorem rows_prefix_of_chain (hends : p.EndsWith ts limit) {b b' : RecordBatch}
    (hb : p.Suits P types 0 b) (h : Chain P p.transforms b b') :
    b'.rows <+: b.rows.filterMap (onRows P ts) := by
  have hrows := (rowList_chainResult hends.unlimited (hb.keeps_left hends)).1
  rw [hends.transforms] at h
  rw [← hrows]
  cases limit with
  | none =>
      rw [Option.map_none, Option.toList_none, List.append_nil] at h
      rw [(chainResult_eq_some_iff hends.unlimited).mpr h]
      exact List.prefix_refl _
  | some n =>
      obtain ⟨b₁, hchain, oldRows, isDone, hcut⟩ := chain_concat h
      rw [(chainResult_eq_some_iff hends.unlimited).mpr hchain]
      exact rows_prefix_of_limitCut hcut

/-- **One batch keeps its order**: of a source with one batch, the rows sunk are what becomes of the
rows of the batch, up to the limit. -/
theorem sinks_rows_of_single (hends : p.EndsWith ts limit) (hn : 0 < p.numThreads) {b : RecordBatch}
    (hsource : p.source.pending source = [b]) (hb : p.Suits P types 0 b)
    (hfits : (p.sourceRows P ts source).length < 2 ^ 64)
    (hrun : run (p.step P) (init source sink poolSize) as = some s) (hmain : s.finalizing = true) :
    ColumnarEngine.sunkRows s.shared.sunk = cut limit (b.rows.filterMap (onRows P ts)) := by
  have hpending : ∀ b' ∈ p.source.pending source, p.Suits P types 0 b' := by
    intro b' hb'
    rw [hsource, List.mem_singleton] at hb'
    exact hb' ▸ hb
  have hrows : p.sourceRows P ts source = b.rows.filterMap (onRows P ts) := by
    rw [sourceRows, hsource, List.flatMap_singleton]
  obtain ⟨arranged, hperm, hsunk⟩ := sinks_rows hends hn hpending hfits hrun hmain
  rw [hrows] at hperm
  -- both sides are first rows of the batch behind the transforms, and equally many
  have hlength : (ColumnarEngine.sunkRows s.shared.sunk).length =
      (cut limit (b.rows.filterMap (onRows P ts))).length := by
    rw [hsunk]
    cases limit with
    | none => exact hperm.length_eq
    | some n => simp [cut, hperm.length_eq]
  have hcut : cut limit (b.rows.filterMap (onRows P ts)) <+: b.rows.filterMap (onRows P ts) := by
    cases limit with
    | none => exact List.prefix_refl _
    | some n => exact List.take_prefix _ _
  have hprefix : ColumnarEngine.sunkRows s.shared.sunk <+: b.rows.filterMap (onRows P ts) := by
    have hle := length_sunk_le hrun
    rw [hsource, List.length_singleton] at hle
    have hchained := sunk_chained (meetsAll_of_forall (stopsAtLast_of_limits_last
      fun i n hi => hends.last hi) _ _) hrun
    rcases hsunk' : s.shared.sunk with _ | ⟨c, _ | ⟨c', calls⟩⟩
    · exact List.nil_prefix
    · obtain ⟨b₀, hb₀, -, hchain⟩ := hchained c (hsunk' ▸ List.mem_singleton_self c)
      rw [hsource, List.mem_singleton] at hb₀
      rw [ColumnarEngine.sunkRows, List.flatMap_singleton]
      exact rows_prefix_of_chain hends hb (hb₀ ▸ hchain)
    · simp [hsunk'] at hle
  exact (List.prefix_of_prefix_length_le hprefix hcut hlength.le).eq_of_length hlength

/-- The row is sunk. -/
theorem sinks_rows_of_single_filter_limit :
    let p := examplePipeline [equalsFive, .limit 1]
    let steps := .enqueue :: List.replicate 9 (.thread 0) ++ [.wakeUp]
    ∃ s, run (p.step Platform.integral) (init exampleScan [] 1) steps = some s ∧
      ColumnarEngine.sunkRows s.shared.sunk = [[.int 5]] := by
  intro p steps
  have hrun : (run (p.step Platform.integral) (init exampleScan [] 1) steps).map
      (fun s => s.finalizing) = some true := by decide
  obtain ⟨s, hs, hmain⟩ := Option.map_eq_some_iff.mp hrun
  have hends : p.EndsWith [equalsFive] (some 1) := ⟨rfl, by decide⟩
  have hsource : p.source.pending exampleScan = [⟨2, none, [exampleColumn]⟩] := rfl
  have hsunk := sinks_rows_of_single hends (by decide) hsource
    (suits_filter_limit (List.mem_singleton_self _)) (by decide) hs hmain
  exact ⟨s, hs, hsunk⟩

/-! ## No call is undefined -/

/-- The calls of `Sink` that have been made, and one that a task is about to make. -/
def Calls (s : ExecState σ τ) (calls : List (RecordBatch × ℕ)) : Prop :=
  calls = s.shared.sunk ∨ ∃ threadId batch stop,
    calls = s.shared.sunk ++ [(batch, threadId)] ∧
      .running threadId (.sink batch stop) ∈ s.threads

/-- What is held for the calls is no more than the threads hold. -/
theorem Calls.le {calls : List (RecordBatch × ℕ)} (h : Calls s calls) {M : Type*}
    (f : PoolThread → Multiset M) (g : List (RecordBatch × ℕ) → Multiset M)
    (hg : ∀ threadId batch stop, g (s.shared.sunk ++ [(batch, threadId)]) =
      g s.shared.sunk + f (.running threadId (.sink batch stop))) :
    g calls ≤ g s.shared.sunk + (s.threads.map f).sum := by
  rcases h with rfl | ⟨threadId, batch, stop, rfl, hmem⟩
  · exact le_add_of_nonneg_right (Multiset.zero_le _)
  · rw [hg threadId batch stop]
    exact add_le_add_right (List.single_le_sum (fun x _ => Multiset.zero_le x) _
      (List.mem_map_of_mem hmem)) _

/-- More calls sink more rows. -/
theorem sunkRows_mono {calls calls' : List (RecordBatch × ℕ)}
    (h : (calls : Multiset (RecordBatch × ℕ)) ≤ calls') :
    (ColumnarEngine.sunkRows calls : Multiset Row) ≤ ColumnarEngine.sunkRows calls' := by
  obtain ⟨rest, hrest⟩ := Multiset.le_iff_exists_add.mp h
  induction rest using Quotient.inductionOn with
  | h rest =>
      rw [Multiset.quot_mk_to_coe, Multiset.coe_add, Multiset.coe_eq_coe] at hrest
      have hperm : (ColumnarEngine.sunkRows calls').Perm
          (ColumnarEngine.sunkRows calls ++ ColumnarEngine.sunkRows rest) := by
        rw [ColumnarEngine.sunkRows, ColumnarEngine.sunkRows, ColumnarEngine.sunkRows,
          ← List.flatMap_append]
        exact hrest.flatMap_right _
      rw [Multiset.coe_eq_coe.mpr hperm, ← Multiset.coe_add]
      exact le_add_of_nonneg_right (Multiset.zero_le _)

/-- **At no time** are other rows sunk than those of the source behind the transforms. -/
theorem sunkRows_le (hends : p.EndsWith ts limit)
    (hpending : ∀ b ∈ p.source.pending source, p.Suits P types 0 b)
    (hfits : (p.sourceRows P ts source).length < 2 ^ 64)
    (hrun : run (p.step P) (init source sink poolSize) as = some s)
    {calls : List (RecordBatch × ℕ)} (hcalls : Calls s calls) :
    (ColumnarEngine.sunkRows calls : Multiset Row) ≤ p.sourceRows P ts source := by
  have hkeeps := fun b hb => (hpending b hb).keeps_left hends
  cases hlimit : limit with
  | none =>
      have htransforms : p.transforms = ts := by
        rw [hends.transforms, hlimit]
        exact List.append_nil ts
      have h : Accounts P p source s :=
        run_invariant (fun s a s' h hstep => Accounts.step (htransforms ▸ hends.unlimited) h hstep)
          (accounts_init source sink poolSize) hrun
      have hle := hcalls.le (owedBy P p) (fun calls => (calls : Multiset (RecordBatch × ℕ)))
        fun _ _ _ => rfl
      rw [h.sunk, htransforms] at hle
      rw [h.source_eq] at hkeeps
      apply (sunkRows_mono hle).trans
      rw [sunkRows_deliver hends.unlimited fun b hb => hkeeps b (List.mem_append_left _ hb),
        sourceRows, h.source_eq, List.flatMap_append, List.filterMap_append, ← Multiset.coe_add]
      exact le_add_of_nonneg_right (Multiset.zero_le _)
  | some n =>
      have hlast : EndsWithLimit p ts n := ⟨by rw [hends.transforms, hlimit]; rfl, hends.unlimited⟩
      have htotal := totalBehind_eq hends.unlimited hkeeps
      have h : LimitAccounts P ts n p source s :=
        run_invariant (fun s a s' h hstep => LimitAccounts.step hlast (htotal ▸ hfits) h hstep)
          (limitAccounts_init source sink poolSize) hrun
      have hle := hcalls.le (ofThread (inFlight P ts))
        (fun calls => (ColumnarEngine.sunkRows calls : Multiset Row)) (by
          intro threadId batch stop
          rw [ColumnarEngine.sunkRows, List.flatMap_append, ← Multiset.coe_add,
            List.flatMap_singleton]
          rfl)
      rw [coe_sunkRows] at hle
      apply (hle.trans h.rows).trans
      rw [takenRows, sourceRows, ← rowsAfter_eq hends.unlimited hkeeps, h.source_eq, rowsAfter,
        rowsAfter, List.map_append, List.sum_append]
      exact le_add_of_nonneg_right (Multiset.zero_le _)

end Pipeline

/-- `GetData` is defined in every state with the invariant, and keeps it. -/
def SourceOperator.Reads {σ : Type*} (src : SourceOperator σ) (I : σ → Prop) : Prop :=
  ∀ s, I s → ∃ r s', src.getData s = some (r, s') ∧ I s'

/-- The sink takes every sequence of valid calls with some of the rows, and `Finalize` behind it. -/
def SinkOperator.Takes {τ : Type*} (k : SinkOperator τ) (sink : τ) (types : List ColumnType) (n : ℕ)
    (rows : List Row) : Prop :=
  ∀ calls, ValidCalls types n calls → (sunkRows calls : Multiset Row) ≤ rows →
    ∃ called final, k.sinkAll sink calls = some called ∧ k.finalize called = some final

namespace Pipeline

variable {σ τ : Type*} {P : Platform} {p : Pipeline σ τ} {ts : List TransformOperator}
  {limit : Option ℕ} {types : List ColumnType} {source : σ} {sink : τ} {poolSize : ℕ}
  {as : List Action} {s : ExecState σ τ}

/-- The source keeps its invariant. -/
theorem source_of_run {I : σ → Prop} (hreads : p.source.Reads I) (hI : I source)
    (hrun : run (p.step P) (init source sink poolSize) as = some s) : I s.shared.source := by
  refine run_invariant (I := fun s : ExecState σ τ => I s.shared.source) ?_ hI hrun
  intro s a s' hsource hstep
  cases step_cases hstep with
  | enqueue _ | wakeUp _ _ _ | finalize _ _ _ | start _ _ => exact hsource
  | task _ htask =>
      cases htask with
      | drained h | took h =>
          obtain ⟨r, source', hget, hI'⟩ := hreads _ hsource
          rw [h, Option.some.injEq, Prod.mk.injEq] at hget
          exact hget.2 ▸ hI'
      | executed _ _ | reached _ _ | storedDone | stopped _ | continued _ | sank _ | counted =>
          exact hsource

/-- `Execute` of a transform on a batch that suits it is defined. -/
theorem Suits.executeTransform {i : ℕ} {batch : RecordBatch} (hi : i < p.transforms.length)
    (h : p.Suits P types i batch) (s : Shared σ τ) :
    ∃ s' point, p.executeTransform P s i batch = some (s', point) := by
  have hkeeps := h.keeps
  rw [List.drop_eq_getElem_cons hi] at hkeeps
  rw [Pipeline.executeTransform, List.getElem?_eq_getElem hi, Option.bind_some]
  cases hop : p.transforms[i] with
  | limit n =>
      obtain ⟨r, isDone, hcut, -⟩ := limitCut_sound hkeeps.1 n (s.limits i).curRows
      exact ⟨_, _, by dsimp only; rw [hcut]; rfl⟩
  | filter _ | scalar _ | drop _ | reorder _ =>
      rw [hop] at hkeeps
      obtain ⟨r, hr⟩ := hkeeps.2.1
      exact ⟨_, _, congrArg (Option.map _) hr⟩

/-- **No call is undefined**, in any state of any run, if the source can be read, its batches suit
the transforms and the sink takes their rows. -/
theorem defined_of_run (hends : p.EndsWith ts limit)
    (hpending : ∀ b ∈ p.source.pending source, p.Suits P types 0 b)
    (hfits : (p.sourceRows P ts source).length < 2 ^ 64) {I : σ → Prop}
    (hreads : p.source.Reads I) (hI : I source)
    (htakes : p.sink.Takes sink (typesAfter types p.transforms) p.numThreads
      (p.sourceRows P ts source))
    (hrun : run (p.step P) (init source sink poolSize) as = some s) : ¬ p.Undefined P s := by
  have h := suited_of_run hends hpending hrun
  obtain ⟨hsched, ⟨called, hcalled, hstate⟩, -⟩ := scheduled_of_run hrun
  rintro (⟨threadId, point, hmem, htask⟩ | ⟨-, hrunning, hfinal⟩)
  · have hpoint := h.points threadId point hmem
    cases point with
    | getData =>
        obtain ⟨r, source', hget, -⟩ := hreads _ (source_of_run hreads hI hrun)
        simp [taskStep, hget] at htask
    | execute i batch =>
        obtain ⟨s', point, hexec⟩ := hpoint.2.executeTransform hpoint.1 s.shared
        simp [taskStep, hexec] at htask
    | storeDone i result => simp [taskStep] at htask
    | isPipelineDone i batch => simp [taskStep] at htask
    | countFinished => simp [taskStep] at htask
    | sink batch stop =>
        have hle := sunkRows_le hends hpending hfits hrun (.inr ⟨_, _, _, rfl, hmem⟩)
        obtain ⟨called', final, hnext, -⟩ := htakes _ (by
          intro c hc
          rcases List.mem_append.mp hc with hc | hc
          · exact h.sunk c hc
          · rw [List.mem_singleton.mp hc]
            exact ⟨hpoint.1, hpoint.2, hsched.threadId_lt hmem⟩) hle
        have hunfinished : s.finalized = false := by
          by_contra hreturned
          rw [Bool.not_eq_false] at hreturned
          obtain ⟨w, hw⟩ := List.getElem?_of_mem hmem
          exact (hsched.unfinished hw).ne (hsched.waited (hsched.returned hreturned)).2
        rw [hunfinished, if_neg Bool.false_ne_true] at hstate
        rw [SinkOperator.sinkAll_concat hcalled, hstate] at hnext
        simp [taskStep, hnext] at htask
  · have hle := sunkRows_le hends hpending hfits hrun (.inl rfl)
    obtain ⟨called', final, hcalled', hfinal'⟩ := htakes _ h.sunk hle
    rw [hrunning, if_neg Bool.false_ne_true] at hstate
    obtain rfl := Option.some.inj (hcalled.symm.trans hcalled')
    rw [hstate, hfinal] at hfinal'
    cases hfinal'

end Pipeline

end ColumnarEngine
