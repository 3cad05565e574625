import ColumnarEngine.Exec.ThreadPoolRuns
import ColumnarEngine.Query.Stages

/-!
# `DataFrame::Collect`

The pipelines of a compiled plan as the program that `Collect` executes on the pool: the breaker at
the end of a pipeline, finalized, is the source of the next. Each stage is given a source that suits
it (`StageInput`); so none of its calls is undefined, what it sinks are rows that the stage yields,
and its breaker is such a source for the next one. Together: a run of `Collect` that can only go on
by spurious wake-ups has returned, and the rows in the result sink are rows that the plan yields
(`collect_yields`).
-/

namespace ColumnarEngine

open Found

/-! ## The program -/

section program

variable (P : Platform) (A : SortAlgorithms ℕ) (ord : IterationOrder)
  (reader : ℕ → ℕ → Option Column)

namespace PipelineSpec

/-- The pipeline as `Execute` runs it. -/
def pipeline (threads : ℕ) (p : PipelineSpec) : Pipeline SourceObject SinkObject where
  source := SourceObject.operator reader
  transforms := p.operators
  sink := SinkObject.operator P A ord
  numThreads := threads

/-- The object at its end, before it is executed. -/
def sinkObject (heap : List Breaker) (p : PipelineSpec) : SinkObject :=
  (p.sinkBreaker heap).elim (.result []) (Breaker.create P)

/-- The scan that it starts at. -/
def sourceObject (p : PipelineSpec) : SourceObject :=
  match p.source with
  | some (.scan op) => .scan op
  | _ => .breaker (.result [])

end PipelineSpec

/-- The loop over `completed_pipelines`: the source of a later pipeline is the sink of the one
before. -/
def BuildContext.program (ctx : BuildContext) : PipelineProgram SourceObject SinkObject where
  pipelines := ctx.schedule.map (PipelineSpec.pipeline P A ord reader ctx.numThreads)
  sink k := (ctx.schedule.getD k {}).sinkObject P ctx.breakers
  firstSource := (ctx.schedule.getD 0 {}).sourceObject
  source _ object := .breaker object

end program

/-! ## The breakers of a compiled plan -/

variable {P : Platform} {plan : PlanNode} {threads : ℕ} {ctx : BuildContext}

/-- Every breaker is constructed for the threads of the context. -/
theorem PlanNode.Built.threads_eq {required : Option (List Bytes)} {built : BuildContext}
    (h : plan.Built P ctx required built) : built.numThreads = ctx.numThreads ∧
      ∀ b ∈ built.breakers, b ∈ ctx.breakers ∨ b.threads = ctx.numThreads := by
  induction h with
  | scan _ _ => exact ⟨rfl, fun b hb => .inl hb⟩
  | filter _ _ ih | limit _ ih | scalar _ _ ih | drop _ _ ih | reorder _ _ ih => exact ih
  | aggregate _ _ ih | groupBy _ _ _ _ ih | orderBy _ _ ih =>
      obtain ⟨hthreads, hbreakers⟩ := ih
      refine ⟨hthreads, fun b hb => ?_⟩
      rcases List.mem_append.mp hb with hb | hb
      · exact hbreakers b hb
      · rw [List.mem_singleton.mp hb]
        exact .inr hthreads

theorem compile_threads (h : compile P plan threads = .ok ctx) :
    ctx.numThreads = threads ∧ ∀ b ∈ ctx.breakers, b.threads = threads := by
  rw [compile, except_bind_eq_ok] at h
  obtain ⟨built, hbuilt, h⟩ := h
  obtain rfl := Except.ok.inj h
  obtain ⟨hthreads, hbreakers⟩ := (PlanNode.built_of_buildPipelines hbuilt).threads_eq
  refine ⟨hthreads, fun b hb => (hbreakers b hb).resolve_left ?_⟩
  simp [collectContext]

namespace BuildContext

/-- The columns that reach the sinks of the first pipelines. -/
def fieldsAt (ctx : BuildContext) (k : ℕ) : List Field :=
  scheduleFields ctx.breakers (ctx.schedule.take k)

/-- The columns that the source of a pipeline emits. -/
def sourceFieldsAt (ctx : BuildContext) (k : ℕ) (p : PipelineSpec) : List Field :=
  p.sourceFields ctx.breakers (ctx.fieldsAt k)

/-- What reaches the sink of a pipeline is what its transforms make of its source. -/
theorem fieldsAt_succ {k : ℕ} {p : PipelineSpec} (hp : ctx.schedule[k]? = some p) :
    ctx.fieldsAt (k + 1) = transformsFields (ctx.sourceFieldsAt k p) p.transforms := by
  obtain ⟨hlt, rfl⟩ := List.getElem?_eq_some_iff.mp hp
  rw [fieldsAt, List.take_add_one, hp, Option.toList_some, scheduleFields_concat]
  rfl

end BuildContext

/-- The first pipeline of a compiled plan scans. -/
theorem compile_scan (h : compile P plan threads = .ok ctx) {p : PipelineSpec}
    (hp : ctx.schedule[0]? = some p) : ∃ op, p.source = some (.scan op) := by
  obtain ⟨⟨p', op, hhead, hscan⟩, -⟩ := ((compile_correct P plan).2 threads ctx h).1
  rw [List.head?_eq_getElem?] at hhead
  obtain rfl := Option.some.inj (hp.symm.trans hhead)
  exact ⟨op, hscan⟩

/-- The breaker between two pipelines fits what is sunk, and emits the columns of the second. -/
theorem compile_link (h : compile P plan threads = .ok ctx) {k : ℕ} {q p : PipelineSpec}
    (hq : ctx.schedule[k]? = some q) (hp : ctx.schedule[k + 1]? = some p) :
    ∃ b, q.sinkBreaker ctx.breakers = some b ∧ b.Fits (ctx.fieldsAt (k + 1)) ∧
      b.threads = threads ∧
      ctx.sourceFieldsAt (k + 1) p = b.outputFields (ctx.fieldsAt (k + 1)) := by
  obtain ⟨hlinked, -, -, hfits, -⟩ := (compile_correct P plan).2 threads ctx h
  obtain ⟨hk, rfl⟩ := List.getElem?_eq_some_iff.mp hq
  obtain ⟨hk', rfl⟩ := List.getElem?_eq_some_iff.mp hp
  obtain ⟨ref, hsink, hsource⟩ := hlinked.breakers.getElem k hk'
  obtain ⟨hfit, -⟩ := hfits (k + 1) _ hp
  rw [PipelineSpec.SourceFits, hsource] at hfit
  obtain ⟨b, hb, hfit⟩ := hfit
  refine ⟨b, ?_, hfit, (compile_threads h).2 b (List.mem_of_getElem? hb), ?_⟩
  · rw [PipelineSpec.sinkBreaker, hsink]
    exact hb
  · rw [BuildContext.sourceFieldsAt, PipelineSpec.sourceFields, hsource]
    show (ctx.breakers[ref]?).elim [] _ = _
    rw [hb]
    rfl

/-- The last pipeline has the result sink, the others a breaker that fits. -/
theorem compile_sink (h : compile P plan threads = .ok ctx) {k : ℕ} {q : PipelineSpec} {b : Breaker}
    (hq : ctx.schedule[k]? = some q) (hb : q.sinkBreaker ctx.breakers = some b) :
    b.Fits (ctx.fieldsAt (k + 1)) ∧ b.threads = threads := by
  obtain ⟨-, -, ⟨last, hlast, hresult⟩, -⟩ := (compile_correct P plan).2 threads ctx h
  by_cases hk : k + 1 < ctx.schedule.length
  · obtain ⟨b', hb', hfit, hthreads, -⟩ := compile_link h hq (List.getElem?_eq_getElem hk)
    obtain rfl := Option.some.inj (hb.symm.trans hb')
    exact ⟨hfit, hthreads⟩
  · have hlt := (List.getElem?_eq_some_iff.mp hq).1
    have hk : k = ctx.schedule.length - 1 := by omega
    rw [List.getLast?_eq_getElem?, ← hk, hq] at hlast
    obtain rfl := Option.some.inj hlast
    rw [PipelineSpec.sinkBreaker, hresult] at hb
    cases hb

/-! ## The conditions -/

/-- The scan can be read to its end and its batches have the rows of the table. -/
structure ScanOperator.Scans (reader : ℕ → ℕ → Option Column) (op : ScanOperator)
    (table : List Row) : Prop where
  readable : op.Readable reader
  wellFormed : ∀ b ∈ op.pending reader, b.WellFormed ∧ b.types = typesOf op.fields
  rows : (op.pending reader).flatMap RecordBatch.rows = table

/-- What `Collect` needs of a compiled plan for the rows of a table: counts of the rows fit, every
`Limit` ends its pipeline, the casts match, the breakers are exact, and no transform reads a column
behind an ORDER BY without rows. -/
structure BuildContext.Executable (P : Platform) (ctx : BuildContext) (table : List Row) :
    Prop where
  small : table.length < 2 ^ 63
  limits : ∀ p ∈ ctx.schedule, p.LimitLast
  casts : ∀ (k : ℕ) (p : PipelineSpec), ctx.schedule[k]? = some p →
    CastsAlong (ctx.sourceFieldsAt k p) false p.transforms
  breakers : ∀ (k : ℕ) (q : PipelineSpec) (b : Breaker) (rows : List Row),
    ctx.schedule[k]? = some q → q.sinkBreaker ctx.breakers = some b →
      Yields P ctx.breakers table (ctx.schedule.take k) q rows → b.Exact (ctx.fieldsAt (k + 1)) rows
  orders : ∀ (k : ℕ) (q p : PipelineSpec) (b : Breaker) (rows : List Row),
    ctx.schedule[k]? = some q → ctx.schedule[k + 1]? = some p →
      q.sinkBreaker ctx.breakers = some b → b.isOrderBy = true →
        Yields P ctx.breakers table (ctx.schedule.take k) q rows →
          b.Emits P (cut q.finalLimit rows) [] → Placed [] false p.operators

/-- The plan can be executed, and its scan reads the table. -/
structure BuildContext.Supported (P : Platform) (reader : ℕ → ℕ → Option Column)
    (ctx : BuildContext) (table : List Row) : Prop extends ctx.Executable P table where
  scan : ∀ p op, ctx.schedule[0]? = some p → p.source = some (.scan op) → op.Scans reader table

/-- A scan emits batches without selection vector. -/
theorem ScanOperator.unfiltered_of_pending {reader : ℕ → ℕ → Option Column} {op : ScanOperator}
    {b : RecordBatch} (h : b ∈ op.pending reader) : b.selectionVector = none := by
  unfold pending at h
  split_ifs at h
  · cases h
  · rw [List.mem_singleton.mp h]
    rfl
  · obtain ⟨chunk, -, hchunk⟩ := List.mem_filterMap.mp h
    obtain ⟨columns, -, rfl⟩ := Option.map_eq_some_iff.mp hchunk
    rfl

/-! ## One stage -/

/-- An arrangement of the images is the images of an arrangement. -/
theorem exists_arrangement_filterMap {α β : Type*} {f : α → Option β} {l : List α} {images : List β}
    (h : images.Perm (l.filterMap f)) :
    ∃ arranged : List α, arranged.Perm l ∧ images = arranged.filterMap f := by
  induction images generalizing l with
  | nil => exact ⟨l, .refl l, List.nil_perm.mp h |>.symm⟩
  | cons b images ih =>
      obtain ⟨a, ha, hab⟩ := List.mem_filterMap.mp (h.subset List.mem_cons_self)
      obtain ⟨before, after, rfl⟩ := List.append_of_mem ha
      have hmiddle := (@List.perm_middle _ a before after).filterMap f
      rw [List.filterMap_cons, hab] at hmiddle
      obtain ⟨arranged, hperm, rfl⟩ := ih ((h.trans hmiddle).cons_inv)
      refine ⟨a :: arranged, (hperm.cons a).trans List.perm_middle.symm, ?_⟩
      rw [List.filterMap_cons, hab]

section stage

variable {A : SortAlgorithms ℕ} {ord : IterationOrder} {reader : ℕ → ℕ → Option Column}
  {table : List Row} {k : ℕ} {p : PipelineSpec} {source : SourceObject}

/-- The source of a stage can be read, its batches suit the pipeline, and its rows are those of the
table, or in one batch those that the breaker before has emitted. -/
structure StageInput (P : Platform) (A : SortAlgorithms ℕ) (ord : IterationOrder)
    (reader : ℕ → ℕ → Option Column) (ctx : BuildContext) (table : List Row) (k : ℕ)
    (p : PipelineSpec) (source : SourceObject) : Prop where
  readable : source.Readable reader
  suits : ∀ b ∈ source.pending reader,
    (p.pipeline P A ord reader ctx.numThreads).Suits P (typesOf (ctx.sourceFieldsAt k p)) 0 b
  rows : k = 0 ∧ (source.pending reader).flatMap RecordBatch.rows = table ∨
    ∃ batch, source.pending reader = [batch] ∧ Yields P ctx.breakers table (ctx.schedule.take k) p
      (batch.rows.filterMap (onRows P p.rowTransforms))

/-- A batch of a source suits the transforms placed over its columns. -/
theorem suits_of_placed {types : List ColumnType} {b : RecordBatch} (hb : b.WellFormed)
    (hunfiltered : b.selectionVector = none) (hplaced : Placed b.types false p.operators)
    (htypes : 0 < b.numRows → b.types = types) :
    (p.pipeline P A ord reader threads).Suits P types 0 b where
  keeps := hplaced.keepsWellFormed hb fun _ => hunfiltered
  types := htypes

namespace StageInput

/-- The pipeline ends with its `Limit`. -/
theorem endsWith (hsupported : ctx.Supported P reader table) (hp : ctx.schedule[k]? = some p) :
    (p.pipeline P A ord reader ctx.numThreads).EndsWith p.rowTransforms p.finalLimit where
  transforms := hsupported.limits p (List.mem_of_getElem? hp)
  unlimited := p.not_isLimit_rowTransforms

/-- The transforms are placed over the columns of the source and leave those of the plan. -/
theorem placed (hcompile : compile P plan threads = .ok ctx)
    (hsupported : ctx.Supported P reader table) (hp : ctx.schedule[k]? = some p) :
    Placed (typesOf (ctx.sourceFieldsAt k p)) false p.operators ∧
      typesAfter (typesOf (ctx.sourceFieldsAt k p)) p.operators =
        typesOf (ctx.fieldsAt (k + 1)) := by
  obtain ⟨-, -, -, hfits, -⟩ := (compile_correct P plan).2 threads ctx hcompile
  rw [BuildContext.fieldsAt_succ hp]
  exact (hsupported.casts k p hp).placed (hfits k p hp).2

/-- The rows behind the transforms, in the order of the source. -/
theorem yields (h : StageInput P A ord reader ctx table k p source) :
    Yields P ctx.breakers table (ctx.schedule.take k) p
      ((p.pipeline P A ord reader ctx.numThreads).sourceRows P p.rowTransforms source) := by
  rcases h.rows with ⟨rfl, htable⟩ | ⟨batch, hpending, hyields⟩
  · have hfirst : Yields P ctx.breakers table [] p (table.filterMap (onRows P p.rowTransforms)) :=
      .first (.refl table)
    rwa [← htable] at hfirst ⊢
  · have hsource : (p.pipeline P A ord reader ctx.numThreads).source.pending source = [batch] :=
      hpending
    rwa [Pipeline.sourceRows, hsource, List.flatMap_singleton]

/-- The rows are numbered by a `size_t`. -/
theorem length_lt (hsupported : ctx.Supported P reader table)
    (h : StageInput P A ord reader ctx table k p source) :
    ((p.pipeline P A ord reader ctx.numThreads).sourceRows P p.rowTransforms source).length <
      2 ^ 64 :=
  h.yields.length_le.trans_lt
    (max_lt (by norm_num) (hsupported.small.trans (by norm_num)))

/-- The sink takes the rows. -/
theorem takes (hcompile : compile P plan threads = .ok ctx) (hthreads : 0 < threads)
    (hsupported : ctx.Supported P reader table) (hp : ctx.schedule[k]? = some p)
    (h : StageInput P A ord reader ctx table k p source) :
    (SinkObject.operator P A ord).Takes (p.sinkObject P ctx.breakers)
      (typesOf (ctx.fieldsAt (k + 1))) ctx.numThreads
      ((p.pipeline P A ord reader ctx.numThreads).sourceRows P p.rowTransforms source) := by
  intro calls hcalls hle
  unfold PipelineSpec.sinkObject
  cases hb : p.sinkBreaker ctx.breakers with
  | none => exact ⟨_, _, SinkObject.sinkAll_result [], rfl⟩
  | some b =>
      obtain ⟨hfit, hnum⟩ := compile_sink hcompile hp hb
      have hhandles := (hfit.handles (hsupported.breakers k p b _ hp hb h.yields)).1.mono hle
      rw [(compile_threads hcompile).1, ← hnum] at hcalls
      obtain ⟨called, final, -, -, hcalled, hfinal, -⟩ :=
        hhandles.run A ord (hnum ▸ hthreads) hcalls
      exact ⟨called, final, hcalled, hfinal⟩

variable {poolSize : ℕ} {as : List Action} {s : ExecState SourceObject SinkObject}

/-- **No call of a stage is undefined.** -/
theorem defined (hcompile : compile P plan threads = .ok ctx) (hthreads : 0 < threads)
    (hsupported : ctx.Supported P reader table) (hp : ctx.schedule[k]? = some p)
    (h : StageInput P A ord reader ctx table k p source)
    (hrun : run ((p.pipeline P A ord reader ctx.numThreads).step P)
      (Pipeline.init source (p.sinkObject P ctx.breakers) poolSize) as = some s) :
    ¬ (p.pipeline P A ord reader ctx.numThreads).Undefined P s := by
  have htakes := h.takes hcompile hthreads hsupported hp
  rw [← (placed hcompile hsupported hp).2] at htakes
  exact Pipeline.defined_of_run (endsWith hsupported hp) h.suits (h.length_lt hsupported)
    (SourceObject.reads reader) h.readable htakes hrun

/-- **What a stage sinks** it yields. -/
theorem sinks (hcompile : compile P plan threads = .ok ctx) (hthreads : 0 < threads)
    (hsupported : ctx.Supported P reader table) (hp : ctx.schedule[k]? = some p)
    (h : StageInput P A ord reader ctx table k p source)
    (hrun : run ((p.pipeline P A ord reader ctx.numThreads).step P)
      (Pipeline.init source (p.sinkObject P ctx.breakers) poolSize) as = some s)
    (hmain : s.finalizing = true) :
    ∃ rows, Yields P ctx.breakers table (ctx.schedule.take k) p rows ∧
      sunkRows s.shared.sunk = cut p.finalLimit rows := by
  have hends : (p.pipeline P A ord reader ctx.numThreads).EndsWith p.rowTransforms p.finalLimit :=
    endsWith hsupported hp
  have hn : 0 < ctx.numThreads := (compile_threads hcompile).1 ▸ hthreads
  have hsmall := h.length_lt hsupported
  rcases h.rows with ⟨rfl, htable⟩ | ⟨batch, hpending, hyields⟩
  · obtain ⟨arranged, hperm, hsunk⟩ := Pipeline.sinks_rows hends hn h.suits hsmall hrun hmain
    obtain ⟨before, hbefore, rfl⟩ := exists_arrangement_filterMap hperm
    exact ⟨_, .first (hbefore.trans (.of_eq htable)), hsunk⟩
  · exact ⟨_, hyields, Pipeline.sinks_rows_of_single hends hn hpending
      (h.suits batch (hpending ▸ List.mem_singleton_self batch)) hsmall hrun hmain⟩

/-- The breaker of a stage handles what has been sunk so far. -/
theorem handlesSunk (hcompile : compile P plan threads = .ok ctx)
    (hsupported : ctx.Supported P reader table) (hp : ctx.schedule[k]? = some p)
    (h : StageInput P A ord reader ctx table k p source)
    (hrun : run ((p.pipeline P A ord reader ctx.numThreads).step P)
      (Pipeline.init source (p.sinkObject P ctx.breakers) poolSize) as = some s) {b : Breaker}
    (hb : p.sinkBreaker ctx.breakers = some b) :
    b.Handles (typesOf (ctx.fieldsAt (k + 1))) (sunkRows s.shared.sunk) ∧
      ValidCalls (typesOf (ctx.fieldsAt (k + 1))) b.threads s.shared.sunk := by
  obtain ⟨hfit, hnum⟩ := compile_sink hcompile hp hb
  have hends : (p.pipeline P A ord reader ctx.numThreads).EndsWith p.rowTransforms p.finalLimit :=
    endsWith hsupported hp
  have hle := Pipeline.sunkRows_le hends h.suits (h.length_lt hsupported) hrun (.inl rfl)
  have hcalls := (Pipeline.suited_of_run hends h.suits hrun).sunk
  have htypes : typesAfter (typesOf (ctx.sourceFieldsAt k p))
      (p.pipeline P A ord reader ctx.numThreads).transforms = typesOf (ctx.fieldsAt (k + 1)) :=
    (placed hcompile hsupported hp).2
  have hthreadsEq : (p.pipeline P A ord reader ctx.numThreads).numThreads = b.threads :=
    (compile_threads hcompile).1.trans hnum.symm
  rw [htypes, hthreadsEq] at hcalls
  exact ⟨(hfit.handles (hsupported.breakers k p b _ hp hb h.yields)).1.mono hle, hcalls⟩

/-- **No sum of a stage overflows.** -/
theorem addsFit (hcompile : compile P plan threads = .ok ctx) (hthreads : 0 < threads)
    (hsupported : ctx.Supported P reader table) (hp : ctx.schedule[k]? = some p)
    (h : StageInput P A ord reader ctx table k p source)
    (hrun : run ((p.pipeline P A ord reader ctx.numThreads).step P)
      (Pipeline.init source (p.sinkObject P ctx.breakers) poolSize) as = some s) {b : Breaker}
    (hb : p.sinkBreaker ctx.breakers = some b) : b.AddsFit P ord s.shared.sunk := by
  obtain ⟨hhandles, hcalls⟩ := h.handlesSunk hcompile hsupported hp hrun hb
  have hpos : 0 < b.threads := (compile_sink hcompile hp hb).2 ▸ hthreads
  exact hhandles.addsFit ord hpos hcalls

/-- **The breaker of a stage**, finalized, is a source for the next. -/
theorem next (hcompile : compile P plan threads = .ok ctx) (hthreads : 0 < threads)
    (hsupported : ctx.Supported P reader table) {q : PipelineSpec} (hq : ctx.schedule[k]? = some q)
    (hp : ctx.schedule[k + 1]? = some p) (h : StageInput P A ord reader ctx table k q source)
    (hrun : run ((q.pipeline P A ord reader ctx.numThreads).step P)
      (Pipeline.init source (q.sinkObject P ctx.breakers) poolSize) as = some s)
    (hfinal : s.finalized = true) :
    StageInput P A ord reader ctx table (k + 1) p (.breaker s.shared.sink) := by
  obtain ⟨b, hb, hfit, hnum, hfields⟩ := compile_link hcompile hq hp
  obtain ⟨hsched, ⟨called, hcalled, hstate⟩, -⟩ := Pipeline.scheduled_of_run hrun
  rw [hfinal, if_pos rfl] at hstate
  obtain ⟨rows, hyields, hsunk⟩ := h.sinks hcompile hthreads hsupported hq hrun
    (hsched.returned hfinal)
  -- what has been sunk, as calls on the breaker
  have houtput := (hfit.handles (hsupported.breakers k q b _ hq hb h.yields)).2
  obtain ⟨hhandles, hcalls⟩ := h.handlesSunk hcompile hsupported hq hrun hb
  obtain ⟨called', final, batch, emitted, hcalled', hfinal', hbreaker, hpending, hemits, hbatch⟩ :=
    hhandles.run A ord (hnum ▸ hthreads) hcalls
  rw [PipelineSpec.sinkObject, hb, Option.elim_some] at hcalled
  obtain rfl : called = called' := Option.some.inj (hcalled.symm.trans hcalled')
  obtain rfl : final = s.shared.sink := Option.some.inj (hfinal'.symm.trans hstate)
  rw [hsunk] at hemits
  have hplaced := (placed hcompile hsupported hp).1
  have hnext : Yields P ctx.breakers table (ctx.schedule.take (k + 1)) p
      (emitted.filterMap (onRows P p.rowTransforms)) := by
    rw [List.take_add_one, hq]
    exact .next hyields hb hemits
  refine ⟨hbreaker, ?_, .inr ⟨batch, hpending, ?_⟩⟩
  · intro b' hb'
    obtain rfl : b' = batch := by simpa [SourceObject.pending, hpending] using hb'
    rw [hfields, ← houtput] at hplaced ⊢
    rcases hbatch with hcarries | ⟨horder, rfl, rfl⟩
    · exact suits_of_placed hcarries.wellFormed hcarries.unfiltered
        (hcarries.types_eq ▸ hplaced) fun _ => hcarries.types_eq
    · exact suits_of_placed ⟨0, by simp, by simp⟩ rfl
        (hsupported.orders k q p b _ hq hp hb horder hyields hemits) (by simp)
  · rcases hbatch with hcarries | ⟨-, rfl, rfl⟩
    · rwa [hcarries.rows_eq]
    · exact hnext

end StageInput

end stage

section collect

variable {A : SortAlgorithms ℕ} {ord : IterationOrder} {reader : ℕ → ℕ → Option Column}
  {table : List Row}

/-- The pipeline of a stage of the program. -/
theorem exists_spec {k : ℕ} {q : Pipeline SourceObject SinkObject}
    (h : (ctx.program P A ord reader).pipelines[k]? = some q) :
    ∃ p, ctx.schedule[k]? = some p ∧ q = p.pipeline P A ord reader ctx.numThreads ∧
      (ctx.program P A ord reader).sink k = p.sinkObject P ctx.breakers := by
  have hmap : (ctx.schedule.map (PipelineSpec.pipeline P A ord reader ctx.numThreads))[k]? =
      some q := h
  rw [List.getElem?_map, Option.map_eq_some_iff] at hmap
  obtain ⟨p, hp, rfl⟩ := hmap
  refine ⟨p, hp, rfl, ?_⟩
  show (ctx.schedule.getD k {}).sinkObject P ctx.breakers = _
  rw [List.getD_eq_getElem?_getD, hp, Option.getD_some]

/-- The source of the first stage is the scan. -/
theorem StageInput.first (hcompile : compile P plan threads = .ok ctx)
    (hsupported : ctx.Supported P reader table) {p : PipelineSpec}
    (hp : ctx.schedule[0]? = some p) :
    StageInput P A ord reader ctx table 0 p (ctx.program P A ord reader).firstSource := by
  obtain ⟨op, hop⟩ := compile_scan hcompile hp
  have hsource : (ctx.program P A ord reader).firstSource = .scan op := by
    show (ctx.schedule.getD 0 {}).sourceObject = _
    rw [List.getD_eq_getElem?_getD, hp, Option.getD_some, PipelineSpec.sourceObject, hop]
  have hfields : ctx.sourceFieldsAt 0 p = op.fields := by
    rw [BuildContext.sourceFieldsAt, PipelineSpec.sourceFields, hop]
  obtain ⟨hreadable, hwellFormed, hrows⟩ := hsupported.scan p op hp hop
  have hplaced := (placed hcompile hsupported hp).1
  rw [hsource]
  refine ⟨hreadable, ?_, .inl ⟨rfl, hrows⟩⟩
  intro b hb
  obtain ⟨hwf, htypes⟩ := hwellFormed b hb
  rw [hfields, ← htypes] at hplaced
  rw [hfields]
  exact suits_of_placed hwf (ScanOperator.unfiltered_of_pending hb) hplaced fun _ => htypes

/-- **Every stage** gets a source that suits it. -/
theorem PipelineProgram.Executed.stageInput (hcompile : compile P plan threads = .ok ctx)
    (hthreads : 0 < threads) (hsupported : ctx.Supported P reader table) {poolSize k : ℕ}
    {source : SourceObject}
    (h : Executed P (ctx.program P A ord reader) poolSize k source)
    {p : PipelineSpec} (hp : ctx.schedule[k]? = some p) :
    StageInput P A ord reader ctx table k p source := by
  induction h generalizing p with
  | first => exact .first hcompile hsupported hp
  | next _ hq hrun hfinal ih =>
      obtain ⟨q, hspec, rfl, hsink⟩ := exists_spec hq
      rw [hsink] at hrun
      exact (ih hspec).next hcompile hthreads hsupported hspec hp hrun hfinal

variable {poolSize : ℕ} {as : List PoolAction} {s : PoolState SourceObject SinkObject}

/-- Where a run of `Collect` stands: in a run of a stage on a source that suits it. -/
theorem exists_stage (hcompile : compile P plan threads = .ok ctx) (hthreads : 0 < threads)
    (hsupported : ctx.Supported P reader table)
    (hrun : run ((ctx.program P A ord reader).step P) ((ctx.program P A ord reader).init poolSize)
      as = some s) :
    ∃ p source as', ctx.schedule[s.stage]? = some p ∧
      StageInput P A ord reader ctx table s.stage p source ∧
      run ((p.pipeline P A ord reader ctx.numThreads).step P)
        (Pipeline.init source (p.sinkObject P ctx.breakers) poolSize) as' =
          some (s.toExec (p.pipeline P A ord reader ctx.numThreads)) := by
  have hne : (ctx.program P A ord reader).pipelines ≠ [] := by
    obtain ⟨ps, p, hps, -⟩ := compile_schedule hcompile
    show ctx.schedule.map _ ≠ []
    simp [hps]
  obtain ⟨q, hrefines⟩ := PipelineProgram.collect_refines hne hrun
  obtain ⟨p, hp, rfl, hsink⟩ := exists_spec hrefines.stage
  obtain ⟨source, as', hexecuted, hrun'⟩ := hrefines.run
  rw [hsink] at hrun'
  exact ⟨p, source, as', hp, hexecuted.stageInput hcompile hthreads hsupported hp, hrun'⟩

/-- No call of `Collect` is undefined. -/
theorem not_undefined (hcompile : compile P plan threads = .ok ctx) (hthreads : 0 < threads)
    (hsupported : ctx.Supported P reader table)
    (hrun : run ((ctx.program P A ord reader).step P) ((ctx.program P A ord reader).init poolSize)
      as = some s) {q : Pipeline SourceObject SinkObject}
    (hq : (ctx.program P A ord reader).pipelines[s.stage]? = some q) :
    ¬ q.Undefined P (s.toExec q) := by
  obtain ⟨p, source, as', hp, hinput, hrun'⟩ := exists_stage hcompile hthreads hsupported hrun
  obtain ⟨p', hp', rfl, -⟩ := exists_spec hq
  obtain rfl := Option.some.inj (hp.symm.trans hp')
  exact hinput.defined hcompile hthreads hsupported hp hrun'

/-- **The last stage** leaves in the result sink, up to its limit, the rows that it yields. -/
theorem StageInput.result (hcompile : compile P plan threads = .ok ctx) (hthreads : 0 < threads)
    (hsupported : ctx.Supported P reader table) {ps : List PipelineSpec} {p : PipelineSpec}
    (hps : ctx.schedule = ps ++ [p]) {source : SourceObject}
    (h : StageInput P A ord reader ctx table ps.length p source) {as : List Action}
    {e : ExecState SourceObject SinkObject}
    (hrun : run ((p.pipeline P A ord reader ctx.numThreads).step P)
      (Pipeline.init source (p.sinkObject P ctx.breakers) poolSize) as = some e)
    (hfinal : e.finalized = true) :
    ∃ rows batches, Yields P ctx.breakers table ps p rows ∧ e.shared.sink = .result batches ∧
      (∀ b ∈ batches, b.WellFormed ∧ b.types = typesOf ctx.schema.fields) ∧
      batches.flatMap RecordBatch.rows = cut p.finalLimit rows := by
  have hp : ctx.schedule[ps.length]? = some p := by rw [hps, List.getElem?_concat_length]
  have htake : ctx.schedule.take ps.length = ps := by rw [hps, List.take_left]
  obtain ⟨hsched, ⟨called, hcalled, hstate⟩, -⟩ := Pipeline.scheduled_of_run hrun
  obtain ⟨rows, hyields, hsunk⟩ :=
    h.sinks hcompile hthreads hsupported hp hrun (hsched.returned hfinal)
  rw [htake] at hyields
  -- what the result sink has
  have hnone : p.sinkBreaker ctx.breakers = none := by
    obtain ⟨ps', last, hps', hresult, -⟩ := compile_schedule hcompile
    obtain ⟨-, hlast⟩ := List.append_inj' (hps.symm.trans hps') rfl
    obtain rfl := List.singleton_injective hlast
    rw [PipelineSpec.sinkBreaker, hresult]
  rw [hfinal, if_pos rfl] at hstate
  rw [PipelineSpec.sinkObject, hnone, Option.elim_none] at hcalled
  obtain rfl := Option.some.inj (hcalled.symm.trans (SinkObject.sinkAll_result []))
  refine ⟨rows, _, hyields, (Option.some.inj hstate).symm, ?_, ?_⟩
  · intro b hb
    obtain ⟨c, hc, rfl⟩ := List.mem_map.mp hb
    have hends : (p.pipeline P A ord reader ctx.numThreads).EndsWith p.rowTransforms p.finalLimit :=
      endsWith hsupported hp
    obtain ⟨hwf, htypes, -⟩ := (Pipeline.suited_of_run hends h.suits hrun).sunk c hc
    refine ⟨hwf, htypes.trans ?_⟩
    have hfields := ((compile_correct P plan).2 threads ctx hcompile).2.2.2.2
    have hlast := (placed hcompile hsupported hp).2
    rw [BuildContext.fieldsAt, List.take_of_length_le (by simp [hps]), ← hfields] at hlast
    exact hlast
  · rw [List.nil_append, List.flatMap_map]
    exact hsunk

/-! ### Examples -/

/-- The chunk of the table. -/
def readerA (_ chunk : ℕ) : Option Column :=
  if chunk = 0 then some (.ofValues .int32 [.int 3, .int 5]) else none

theorem supportedA : contextA.Supported Platform.integral readerA [[.int 3], [.int 5]] where
  small := by decide
  limits := by decide
  casts := by
    rintro (_ | _ | k) p hp
    · cases hp
      exact ⟨trivial, trivial, trivial⟩
    · cases hp
      exact trivial
    · cases hp
  breakers := by
    rintro (_ | _ | k) q b rows hq hb hyields
    · cases hq
      cases hb
      intro f hf
      obtain rfl := List.mem_singleton.mp hf
      refine ⟨⟨by decide, by decide⟩, ?_⟩
      obtain ⟨arranged, hperm, rfl⟩ := hyields.of_nil
      rw [Multiset.coe_eq_coe.mpr (hperm.filterMap _)]
      decide
    · cases hq
      cases hb
    · cases hq
  orders := by
    rintro (_ | _ | k) q p b rows hq - hb horder
    · cases hq
      cases hb
      cases horder
    · cases hq
      cases hb
    · cases hq
  scan := by
    intro p op hp hop
    cases hp
    cases hop
    refine ⟨?_, ?_, ?_⟩
    · intro k hk
      obtain rfl : k = 0 := Nat.lt_one_iff.mp hk
      exact ⟨_, rfl⟩
    · decide
    · decide

/-- The query as a program. -/
def programA : PipelineProgram SourceObject SinkObject :=
  contextA.program Platform.integral (.mergeSort ℕ) ⟨id, fun _ => .refl _⟩ readerA

/-- It is executed on one worker. -/
def actionsA : List PoolAction :=
  PipelineProgram.exampleFirst ++ [.main, .main, .notifyOne (some 0)] ++
    List.replicate 9 (.worker 0) ++ List.replicate 7 .main ++ [.worker 0, .worker 0, .main, .main]

/-- The chunks of the table. -/
def readerB (column chunk : ℕ) : Option Column :=
  let values := [[[3, 5, 7], [7, 5]], [[10, 20, 30], [40, 60]]]
  some (.ofValues .int32 (((values.getD column []).getD chunk []).map .int))

/-- The rows of the table. -/
def rowsB : List Row :=
  [[.int 3, .int 10], [.int 5, .int 20], [.int 7, .int 30], [.int 7, .int 40], [.int 5, .int 60]]

theorem supportedB : contextB.Supported Platform.integral readerB rowsB where
  small := by decide
  limits := by decide
  casts := by
    rintro (_ | _ | _ | k) p hp
    · cases hp
      refine ⟨trivial, trivial, ⟨trivial, trivial⟩, ?_, trivial⟩
      intro hnil
      cases hnil
    · cases hp
      exact trivial
    · cases hp
      exact ⟨trivial, trivial, trivial⟩
    · cases hp
  breakers := by
    rintro (_ | _ | _ | k) q b rows hq hb hyields
    · cases hq
      cases hb
      obtain ⟨arranged, hperm, rfl⟩ := hyields.of_nil
      refine ⟨fun f hf => ?_, ?_⟩
      · obtain rfl := List.mem_singleton.mp hf
        refine ⟨⟨by decide, by decide⟩, fun k => ?_⟩
        refine AggregationFunction.HasRoom.mono ?_ (Multiset.filter_le _ _)
        rw [Multiset.coe_eq_coe.mpr (hperm.filterMap _)]
        decide
      · rw [Multiset.coe_eq_coe.mpr (hperm.filterMap _)]
        decide
    · cases hq
      cases hb
      have hle := hyields.length_le
      exact ⟨by decide, by decide, fun _ h => (by cases h), hle.trans_lt (by decide)⟩
    · cases hq
      cases hb
    · cases hq
  orders := by
    rintro (_ | _ | _ | k) q p b rows hq hp hb horder - -
    · cases hq
      cases hb
      cases horder
    · cases hp
      exact ⟨trivial, trivial, trivial⟩
    · cases hq
      cases hb
    · cases hq
  scan := by
    intro p op hp hop
    cases hp
    cases hop
    refine ⟨?_, by decide, by decide⟩
    intro k hk
    exact ⟨_, rfl⟩

/-- The query as a program. -/
def programB : PipelineProgram SourceObject SinkObject :=
  contextB.program Platform.integral (.insertionSort ℕ) ⟨id, fun _ => .refl _⟩ readerB

/-- The main thread pushes two tasks; the notifications wake these workers. -/
def pushTasks (first second : Option ℕ) : List PoolAction :=
  [.main, .main, .notifyOne first, .main, .main, .notifyOne second, .main, .main]

/-- The second worker works while the first one waits. -/
def overtake (before between after : ℕ) : List PoolAction :=
  List.flatten [.replicate before (.worker 0), .replicate between (.worker 1),
    .replicate after (.worker 0)]

/-- It is executed on two workers; each of them sinks a chunk of the table. -/
def actionsB : List PoolAction :=
  List.flatten [pushTasks none none, overtake 7 13 6, .replicate 4 .main,
    pushTasks (some 0) (some 1), overtake 7 7 0, .replicate 4 .main,
    pushTasks (some 1) none, overtake 7 7 4, .replicate 7 .main,
    [.worker 0, .worker 0, .main, .worker 1, .worker 1, .main, .main]]

theorem run_actionsB : (run (programB.step Platform.integral) (programB.init 2) actionsB).map
    (fun s => s.main) = some .destroyed := by
  decide +kernel

end collect

end ColumnarEngine
