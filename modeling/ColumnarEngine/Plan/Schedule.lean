import ColumnarEngine.Plan.Layout

/-!
# The pipelines of a compiled plan

`BuildPipelines` of a node completes the pipelines below it and leaves the current one with a source
and transforms. `Schedule` describes them in order: the first scans, each later one starts at the
breaker that is the sink of the one before, and every operator fits the columns that reach it. The
schema is what the last one produces. `buildPipelines_builds` shows this for every node by induction
on the plan, over a context whose other pipelines stay as they were, and `compile_correct` is the
result for the whole plan.
-/

namespace ColumnarEngine

open Found

/-! ## Schedules -/

namespace PipelineSpec

/-- The source of a pipeline fits: a scan reads columns of its table, a breaker fits the columns
that reach it. -/
def SourceFits (heap : List Breaker) (input : List Field) (p : PipelineSpec) : Prop :=
  match p.source with
  | some (.scan op) => ∀ i ∈ op.columnIndices, i < op.metadata.columnMeta.length
  | some (.breaker ref) => ∃ b, heap[ref]? = some b ∧ b.Fits input
  | none => False

/-- The source and the transforms of a pipeline fit. -/
def Fits (heap : List Breaker) (input : List Field) (p : PipelineSpec) : Prop :=
  p.SourceFits heap input ∧ TransformsFit (p.sourceFields heap input) p.transforms

variable {heap : List Breaker} {input : List Field} {p : PipelineSpec}

/-- Another breaker does not change a pipeline that has its source. -/
theorem sourceFields_append (h : p.SourceFits heap input) (b : Breaker) :
    p.SourceFits (heap ++ [b]) input ∧
      p.sourceFields (heap ++ [b]) input = p.sourceFields heap input := by
  unfold SourceFits sourceFields at *
  cases hsource : p.source with
  | none => simp [hsource] at h
  | some source =>
      cases source with
      | scan op =>
          rw [hsource] at h
          exact ⟨h, rfl⟩
      | breaker ref =>
          rw [hsource] at h
          obtain ⟨b', hb', hfits⟩ := h
          have hkept : (heap ++ [b])[ref]? = some b' := by
            rw [List.getElem?_append_left (List.getElem?_eq_some_iff.mp hb').1, hb']
          exact ⟨⟨b', hkept, hfits⟩, by simp only [hkept, hb']⟩

theorem fits_append (h : p.Fits heap input) (b : Breaker) :
    p.Fits (heap ++ [b]) input ∧
      p.outputFields (heap ++ [b]) input = p.outputFields heap input := by
  obtain ⟨hsource, hfields⟩ := sourceFields_append h.1 b
  exact ⟨⟨hsource, hfields ▸ h.2⟩, by rw [outputFields, outputFields, hfields]⟩

end PipelineSpec

/-- The pipelines `ps` and then `p`, each started at what the one before has accumulated;
`fields` reach the sink of `p`. -/
inductive Schedule (heap : List Breaker) : List PipelineSpec → PipelineSpec → List Field → Prop
  | first {p : PipelineSpec} {op : ScanOperator} (hscan : p.source = some (.scan op))
      (hfits : p.Fits heap []) : Schedule heap [] p (p.outputFields heap [])
  | next {ps : List PipelineSpec} {q p : PipelineSpec} {fields : List Field} {ref : ℕ}
      (hprev : Schedule heap ps q fields) (hsink : q.sink = some (.breaker ref))
      (hsource : p.source = some (.breaker ref)) (hfits : p.Fits heap fields) :
      Schedule heap (ps ++ [q]) p (p.outputFields heap fields)

/-- What a schedule says of each pair of neighbours: the breaker between them. -/
def LinkedTo (p q : PipelineSpec) : Prop :=
  ∃ ref, p.sink = some (.breaker ref) ∧ q.source = some (.breaker ref)

/-- The first pipeline scans and each later one starts at the sink of the one before. -/
structure Linked (ps : List PipelineSpec) : Prop where
  scan : ∃ p op, ps.head? = some p ∧ p.source = some (.scan op)
  breakers : ps.IsChain LinkedTo

/-- Every pipeline fits the columns that reach it from those before. -/
def ScheduleFits (heap : List Breaker) (ps : List PipelineSpec) : Prop :=
  ∀ (k : ℕ) (p : PipelineSpec), ps[k]? = some p → p.Fits heap (scheduleFields heap (ps.take k))

theorem scheduleFields_concat (heap : List Breaker) (ps : List PipelineSpec) (p : PipelineSpec) :
    scheduleFields heap (ps ++ [p]) = p.outputFields heap (scheduleFields heap ps) := by
  simp [scheduleFields]

namespace Schedule

variable {heap : List Breaker} {ps : List PipelineSpec} {p : PipelineSpec} {fields : List Field}

/-- A transform at the end of the current pipeline. -/
theorem push (h : Schedule heap ps p fields) {t : CompiledTransform} (ht : t.Fits fields) :
    Schedule heap ps { p with transforms := p.transforms ++ [t] } (t.outputFields fields) := by
  have hfields : ∀ input, PipelineSpec.outputFields heap input
      { p with transforms := p.transforms ++ [t] } =
        t.outputFields (p.outputFields heap input) := by
    intro input
    simp [PipelineSpec.outputFields, transformsFields, PipelineSpec.sourceFields]
  cases h with
  | first hscan hfits =>
      rw [← hfields]
      exact .first hscan ⟨hfits.1, transformsFit_append hfits.2 ht⟩
  | next hprev hsink hsource hfits =>
      rw [← hfields]
      exact .next hprev hsink hsource ⟨hfits.1, transformsFit_append hfits.2 ht⟩

/-- The sink of the current pipeline. -/
theorem setSink (h : Schedule heap ps p fields) (sink : Option SinkRef) :
    Schedule heap ps { p with sink := sink } fields := by
  cases h with
  | first hscan hfits => exact .first (p := { p with sink := sink }) hscan hfits
  | next hprev hsink hsource hfits =>
      exact .next (p := { p with sink := sink }) hprev hsink hsource hfits

/-- One more breaker. -/
theorem addBreaker (h : Schedule heap ps p fields) (b : Breaker) :
    Schedule (heap ++ [b]) ps p fields := by
  induction h with
  | first hscan hfits =>
      obtain ⟨hfits', hfields⟩ := PipelineSpec.fits_append hfits b
      exact hfields ▸ .first hscan hfits'
  | next _ hsink hsource hfits ih =>
      obtain ⟨hfits', hfields⟩ := PipelineSpec.fits_append hfits b
      exact hfields ▸ .next ih hsink hsource hfits'

/-- The fields are what the pipelines produce, one after the other. -/
theorem fields_eq (h : Schedule heap ps p fields) : fields = scheduleFields heap (ps ++ [p]) := by
  induction h with
  | first _ _ => rfl
  | next _ _ _ _ ih => rw [scheduleFields_concat, ← ih]

theorem linked (h : Schedule heap ps p fields) : Linked (ps ++ [p]) := by
  induction h with
  | @first p op hscan _ => exact ⟨⟨p, op, rfl, hscan⟩, .singleton _⟩
  | @next ps q p fields ref _ hsink hsource _ ih =>
      obtain ⟨⟨p₀, op, hhead, hscan⟩, hchain⟩ := ih
      refine ⟨⟨p₀, op, by rw [List.head?_append, hhead]; rfl, hscan⟩, ?_⟩
      apply hchain.append (.singleton _)
      intro x hx y hy
      obtain rfl : q = x := by simpa using hx
      obtain rfl : p = y := by simpa using hy
      exact ⟨ref, hsink, hsource⟩

theorem fits (h : Schedule heap ps p fields) : ScheduleFits heap (ps ++ [p]) := by
  induction h with
  | first _ hfits =>
      intro k p hk
      obtain ⟨hlt, rfl⟩ := List.getElem?_eq_some_iff.mp hk
      obtain rfl : k = 0 := by simpa using hlt
      exact hfits
  | @next ps q p fields _ hprev _ _ hfits ih =>
      intro k p' hk
      rcases Nat.lt_trichotomy k (ps ++ [q]).length with hlt | rfl | hgt
      · rw [List.getElem?_append_left hlt] at hk
        rw [List.take_append_of_le_length hlt.le]
        exact ih k p' hk
      · obtain rfl : p = p' := by simpa using hk
        rw [List.take_left, ← hprev.fields_eq]
        exact hfits
      · rw [List.getElem?_eq_none (by rw [List.length_append, List.length_singleton]; omega)] at hk
        simp at hk

/-- All pipelines but the last have a sink, all have a source. -/
theorem complete (h : Schedule heap ps p fields) :
    (∀ q ∈ ps, q.source.isSome ∧ q.sink.isSome) ∧ p.source.isSome := by
  induction h with
  | first hscan _ => exact ⟨by simp, by rw [hscan]; rfl⟩
  | next _ hsink hsource _ ih =>
      refine ⟨?_, by rw [hsource]; rfl⟩
      intro q' hq'
      rcases List.mem_append.mp hq' with hq' | hq'
      · exact ih.1 q' hq'
      · rw [List.mem_singleton.mp hq']
        exact ⟨ih.2, by rw [hsink]; rfl⟩

end Schedule

/-! ## Contexts -/

namespace BuildContext

/-- The pipeline a pointer points to. -/
def pipelineAt (ctx : BuildContext) (ref : ℕ) : PipelineSpec := ctx.pipelines.getD ref {}

/-- The current pipeline is still without source and transforms, as `BuildPipelines` finds it. -/
def Fresh (ctx : BuildContext) : Prop :=
  ∃ sink, ctx.pipelines[ctx.currentPipeline]? = some { sink := sink }

/-- `refs` point to the pipelines `ps`. -/
def Holds (ctx : BuildContext) (refs : List ℕ) (ps : List PipelineSpec) : Prop :=
  List.Forall₂ (fun ref p => ctx.pipelines[ref]? = some p) refs ps

variable {ctx built : BuildContext} {refs : List ℕ} {ps : List PipelineSpec}

theorem Holds.map_eq (h : ctx.Holds refs ps) : refs.map ctx.pipelineAt = ps := by
  induction h with
  | nil => rfl
  | cons hp _ ih =>
      rw [List.map_cons, ih, pipelineAt, List.getD_eq_getElem?_getD, hp]
      rfl

/-- Pointers to other pipelines than the changed ones. -/
theorem Holds.of_eq (h : ctx.Holds refs ps)
    (hsame : ∀ ref ∈ refs, built.pipelines[ref]? = ctx.pipelines[ref]?) : built.Holds refs ps := by
  induction h with
  | nil => exact .nil
  | @cons ref p refs ps hp _ ih =>
      exact .cons ((hsame ref List.mem_cons_self).trans hp)
        (ih fun r hr => hsame r (List.mem_cons_of_mem ref hr))

/-- What `BuildPipelines` has done to a context: it has completed new pipelines and set up the
current one, keeping its sink; these are a schedule that produces the schema. All other pipelines
are as before. -/
structure Builds (ctx built : BuildContext) : Prop where
  current : built.currentPipeline = ctx.currentPipeline
  numThreads : built.numThreads = ctx.numThreads
  others : ∀ i < ctx.pipelines.length, i ≠ ctx.currentPipeline →
    built.pipelines[i]? = ctx.pipelines[i]?
  schedule : ∃ refs ps p, built.completedPipelines = ctx.completedPipelines ++ refs ∧
    (∀ ref ∈ refs, ctx.pipelines.length ≤ ref) ∧ built.Holds refs ps ∧
    built.pipelines[ctx.currentPipeline]? = some p ∧
    p.sink = (ctx.pipelineAt ctx.currentPipeline).sink ∧
    Schedule built.breakers ps p built.schema.fields

/-- A change of the current pipeline after `BuildPipelines` of the child. -/
theorem Builds.modifyCurrent (h : Builds ctx built)
    (hlt : ctx.currentPipeline < ctx.pipelines.length)
    {f : PipelineSpec → PipelineSpec} {schema : Schema} (hsink : ∀ p, (f p).sink = p.sink)
    (hf : ∀ ps p, Schedule built.breakers ps p built.schema.fields →
      Schedule built.breakers ps (f p) schema.fields) :
    Builds ctx { built.modifyCurrent f with schema := schema } := by
  obtain ⟨refs, ps, p, hcompleted, hnew, hholds, hp, hpsink, hschedule⟩ := h.schedule
  have hother : ∀ i, i ≠ ctx.currentPipeline →
      (built.modifyCurrent f).pipelines[i]? = built.pipelines[i]? := by
    intro i hi
    exact List.getElem?_modify_ne f _ (by rw [h.current]; exact hi.symm)
  refine ⟨h.current, h.numThreads, fun i hi hne => (hother i hne).trans (h.others i hi hne),
    refs, ps, f p, hcompleted, hnew, hholds.of_eq fun ref href => ?_, ?_, ?_, hf ps p hschedule⟩
  · exact hother ref (by have := hnew ref href; omega)
  · simp only [BuildContext.modifyCurrent, h.current, List.getElem?_modify_eq, hp]
    rfl
  · rw [hsink, hpsink]

theorem Fresh.lt (h : ctx.Fresh) : ctx.currentPipeline < ctx.pipelines.length := by
  obtain ⟨sink, h⟩ := h
  exact (List.getElem?_eq_some_iff.mp h).1

/-- The new inner pipeline is fresh. -/
theorem fresh_enterPipeline (ctx : BuildContext) : ctx.enterPipeline.Fresh :=
  ⟨none, by simp [enterPipeline]⟩

/-- A `ScanNode`. -/
theorem builds_setScan (hctx : ctx.Fresh) {op : ScanOperator} {schema : Schema}
    (hfields : op.fields = schema.fields)
    (hop : ∀ i ∈ op.columnIndices, i < op.metadata.columnMeta.length) :
    Builds ctx { ctx.setScan op with schema := schema } := by
  obtain ⟨sink, hsink⟩ := hctx
  refine ⟨rfl, rfl, fun i _ hne => List.getElem?_modify_ne _ _ hne.symm,
    [], [], { source := some (.scan op), sink := sink }, (List.append_nil _).symm, by simp, .nil,
    ?_, ?_, ?_⟩
  · simp [setScan, BuildContext.modifyCurrent, hsink]
  · simp [pipelineAt, hsink]
  · rw [← hfields]
    exact .first (p := { source := some (.scan op), sink := sink }) rfl ⟨hop, trivial⟩

/-- A transform after `BuildPipelines` of the child. -/
theorem Builds.pushTransform (h : Builds ctx built) (hctx : ctx.Fresh) {t : CompiledTransform}
    (ht : t.Fits built.schema.fields) {schema : Schema}
    (hschema : schema.fields = t.outputFields built.schema.fields) :
    Builds ctx { built.pushTransform t with schema := schema } :=
  h.modifyCurrent hctx.lt (fun _ => rfl) fun _ _ hps => hschema ▸ hps.push ht

/-- A breaker after `BuildPipelines` of the child into a new pipeline. -/
theorem Builds.leavePipeline (h : Builds ctx.enterPipeline built) (hctx : ctx.Fresh) {b : Breaker}
    (hb : b.Fits built.schema.fields) {schema : Schema}
    (hschema : schema.fields = b.outputFields built.schema.fields) :
    Builds ctx { built.leavePipeline ctx.currentPipeline ctx.enterPipeline.currentPipeline b with
      schema := schema } := by
  obtain ⟨refs, ps, p, hcompleted, hnew, hholds, hp, -, hschedule⟩ := h.schedule
  obtain ⟨sink, hsink⟩ := hctx
  have hlt := (List.getElem?_eq_some_iff.mp hsink).1
  set outer := ctx.currentPipeline
  set inner := ctx.pipelines.length with hinner
  set ref := built.breakers.length with href
  have hne : inner ≠ outer := by omega
  have hnew' : ∀ r ∈ refs, inner + 1 ≤ r := by simpa [enterPipeline] using hnew
  -- only the inner and the outer pipeline have changed
  have hother : ∀ i, i ≠ outer → i ≠ inner →
      (built.leavePipeline outer inner b).pipelines[i]? = built.pipelines[i]? := by
    intro i ho hi
    simp [BuildContext.leavePipeline, List.getElem?_modify_ne, ho.symm, hi.symm]
  have hold : ∀ i < inner, built.pipelines[i]? = ctx.pipelines[i]? := by
    intro i hi
    rw [h.others i (by simp [enterPipeline]; omega) (by simp [enterPipeline]; omega)]
    exact List.getElem?_append_left hi
  have hinnerAt : (built.leavePipeline outer inner b).pipelines[inner]? =
      some { p with sink := some (.breaker ref) } := by
    simp only [BuildContext.leavePipeline, List.getElem?_modify_ne _ _ hne.symm,
      List.getElem?_modify_eq]
    rw [show built.pipelines[inner]? = some p from hp]
    rfl
  have houterAt : (built.leavePipeline outer inner b).pipelines[outer]? =
      some { source := some (.breaker ref), sink := sink } := by
    simp only [BuildContext.leavePipeline, List.getElem?_modify_eq,
      List.getElem?_modify_ne _ _ hne]
    rw [hold outer hlt, hsink]
    rfl
  refine ⟨rfl, h.numThreads, fun i hi ho => ?_, refs ++ [inner],
    ps ++ [{ p with sink := some (.breaker ref) }], { source := some (.breaker ref), sink := sink },
    ?_, ?_, ?_, houterAt, by simp [pipelineAt, outer, hsink], ?_⟩
  · exact (hother i ho hi.ne).trans (hold i hi)
  · simp only [BuildContext.leavePipeline, hcompleted, enterPipeline, List.append_assoc]
    rfl
  · intro r hr
    rcases List.mem_append.mp hr with hr | hr
    · have := hnew' r hr
      omega
    · rw [List.mem_singleton.mp hr]
  · refine List.rel_append (Holds.of_eq hholds fun r hr => ?_) (.cons hinnerAt .nil)
    have hr := hnew' r hr
    exact hother r (by omega) (by omega)
  · have hlast : (built.breakers ++ [b])[ref]? = some b := by simp [href]
    have hfields : PipelineSpec.outputFields (built.breakers ++ [b]) built.schema.fields
        { source := some (.breaker ref), sink := sink } = schema.fields := by
      simp [PipelineSpec.outputFields, transformsFields, PipelineSpec.sourceFields, hlast, hschema]
    rw [← hfields]
    exact .next ((hschedule.addBreaker b).setSink _) rfl rfl ⟨⟨b, hlast, hb⟩, trivial⟩

end BuildContext

/-! ## Compilation -/

variable {P : Platform}

/-- **`BuildPipelines`** of a node. -/
theorem PlanNode.buildPipelines_builds {plan : PlanNode} {ctx built : BuildContext}
    {required : Option (List Bytes)} (hctx : ctx.Fresh)
    (h : plan.buildPipelines P ctx required = .ok built) : ctx.Builds built := by
  have hbuilt := built_of_buildPipelines h
  clear h
  induction hbuilt with
  | scan hop hfields =>
      obtain ⟨hmap, hlt⟩ := scan_fields hop hfields
      exact BuildContext.builds_setScan hctx hmap hlt
  | aggregate _ hfs ih =>
      obtain ⟨hfields, hfit⟩ := createAggregates_eq_ok hfs
      exact (ih (BuildContext.fresh_enterPipeline _)).leavePipeline hctx (by exact hfit) hfields
  | @groupBy _ _ _ _ _ _ keys _ _ _ _ hkeys hfs ih =>
      obtain ⟨hlt, hmap⟩ := map_snd_eq (groupByKeys_eq_ok hkeys)
      obtain ⟨hfields, hfit⟩ := createAggregates_eq_ok hfs
      have hkeyTypes : keys.map (fun k => k.2.type) = typesOf (keys.map Prod.snd) := by
        rw [typesOf, List.map_map]
        rfl
      refine (ih (BuildContext.fresh_enterPipeline _)).leavePipeline hctx ?_ ?_
      · exact ⟨hlt, hmap ▸ hkeyTypes, hfit⟩
      · dsimp only [Breaker.outputFields]
        rw [hfields, hmap]
  | filter _ hf ih =>
      exact (ih hctx).pushTransform hctx
        (by exact FilterExpression.createFilterFunction_wellTyped hf) rfl
  | orderBy _ hsort ih =>
      refine (ih (BuildContext.fresh_enterPipeline _)).leavePipeline hctx ?_ rfl
      refine ⟨?_, rfl⟩
      intro s hs
      obtain ⟨c, -, hi, -⟩ := exists_of_forall₂_right hsort hs
      obtain ⟨f, hf, -⟩ := Schema.getElem?_of_getColumnIndexByName hi
      exact (List.getElem?_eq_some_iff.mp hf).1
  | limit _ ih => exact (ih hctx).pushTransform hctx (by trivial) rfl
  | scalar _ hfs ih =>
      obtain ⟨hfields, hfit⟩ := createScalars_eq_ok hfs
      exact (ih hctx).pushTransform hctx (by exact hfit) hfields
  | @drop _ columnsToDrop _ built _ _ _ ih =>
      obtain ⟨hnodup, hkept⟩ := keptColumns_eq built.schema.fields columnsToDrop
      obtain ⟨hlt, hmap⟩ := map_snd_eq hkept
      exact (ih hctx).pushTransform hctx (by exact ⟨hnodup, hlt⟩) hmap
  | reorder _ hfound ih =>
      obtain ⟨hlt, hmap⟩ := map_snd_eq (reorderColumns_eq_ok hfound)
      exact (ih hctx).pushTransform hctx (by exact hlt) hmap

/-- What `Collect` executes: a schedule whose last pipeline has the result sink. -/
theorem compile_schedule {plan : PlanNode} {threads : ℕ} {ctx : BuildContext}
    (h : compile P plan threads = .ok ctx) :
    ∃ ps p, ctx.schedule = ps ++ [p] ∧ p.sink = some .result ∧
      Schedule ctx.breakers ps p ctx.schema.fields := by
  rw [compile, except_bind_eq_ok] at h
  obtain ⟨built, hbuilt, h⟩ := h
  obtain rfl := Except.ok.inj h
  have hbuilds := PlanNode.buildPipelines_builds ⟨some .result, rfl⟩ hbuilt
  obtain ⟨refs, ps, p, hcompleted, -, hholds, hp, hsink, hschedule⟩ := hbuilds.schedule
  refine ⟨ps, p, ?_, hsink, hschedule⟩
  have hlast : built.pipelineAt 0 = p := by
    rw [BuildContext.pipelineAt, List.getD_eq_getElem?_getD,
      show built.pipelines[0]? = some p from hp]
    rfl
  simp only [BuildContext.schedule, hcompleted, collectContext, List.nil_append, List.map_append,
    List.map_singleton]
  rw [← hholds.map_eq, ← hlast]
  rfl

/-- **Plan compilation.** After `BuildPipelines` of any node, called as the recursion calls it with
an empty current pipeline, the pipelines completed for the node and the current one are linked
through their breakers from the scan on, every operator fits the columns that reach it, and the
names and types of the schema are, position by position, those of the columns these operators
produce. For the whole plan, every pipeline that `Collect` executes has a source and a sink, and the
last one has the result sink. -/
theorem compile_correct (P : Platform) (plan : PlanNode) :
    (∀ ctx required built, ctx.Fresh → plan.buildPipelines P ctx required = .ok built →
      ∃ refs, built.completedPipelines = ctx.completedPipelines ++ refs ∧
        let ps := (refs ++ [built.currentPipeline]).map built.pipelineAt
        Linked ps ∧ ScheduleFits built.breakers ps ∧
          built.schema.fields = scheduleFields built.breakers ps) ∧
    ∀ threads ctx, compile P plan threads = .ok ctx →
      Linked ctx.schedule ∧ (∀ p ∈ ctx.schedule, p.source.isSome ∧ p.sink.isSome) ∧
        (∃ p, ctx.schedule.getLast? = some p ∧ p.sink = some .result) ∧
        ScheduleFits ctx.breakers ctx.schedule ∧
        ctx.schema.fields = scheduleFields ctx.breakers ctx.schedule := by
  constructor
  · intro ctx required built hctx h
    have hbuilds := PlanNode.buildPipelines_builds hctx h
    obtain ⟨refs, ps, p, hcompleted, -, hholds, hp, -, hschedule⟩ := hbuilds.schedule
    have hps : (refs ++ [built.currentPipeline]).map built.pipelineAt = ps ++ [p] := by
      refine BuildContext.Holds.map_eq (List.rel_append hholds (.cons ?_ .nil))
      rw [hbuilds.current, hp]
    refine ⟨refs, hcompleted, ?_⟩
    rw [hps]
    exact ⟨hschedule.linked, hschedule.fits, hschedule.fields_eq⟩
  · intro threads ctx h
    obtain ⟨ps, p, hps, hsink, hschedule⟩ := compile_schedule h
    obtain ⟨hall, hsource⟩ := hschedule.complete
    rw [hps]
    refine ⟨hschedule.linked, ?_, ⟨p, by simp, hsink⟩, hschedule.fits, hschedule.fields_eq⟩
    intro q hq
    rcases List.mem_append.mp hq with hq | hq
    · exact hall q hq
    · rw [List.mem_singleton.mp hq, hsink]
      exact ⟨hsource, rfl⟩

/-- What `compile` returns, from what it evaluates to. -/
theorem compile_eq_ok {plan : PlanNode} {threads : ℕ} {β : Type*} {f : BuildContext → β} {b : β}
    (h : (compile P plan threads).toOption.map f = some b) :
    ∃ ctx, compile P plan threads = .ok ctx ∧ f ctx = b := by
  obtain ⟨ctx, hctx, hf⟩ := Option.map_eq_some_iff.mp h
  refine ⟨ctx, ?_, hf⟩
  cases hok : compile P plan threads with
  | error e => simp [hok, Except.toOption] at hctx
  | ok ctx' =>
      rw [hok] at hctx
      exact congrArg Except.ok (Option.some.inj hctx)

/-- A plan with a filter, a GROUP BY and an ORDER BY over a table with the columns `a` and `b`:
three pipelines. -/
theorem compile_correct_three_pipelines :
    let tableMeta : MetadataTable :=
      ⟨[⟨ascii "a", .int32, [], []⟩, ⟨ascii "b", .string, [], []⟩], 0⟩
    let filtered :=
      PlanNode.filter (.scan [ascii "b"] tableMeta) (.greater (ascii "a") .int32 (.int 5))
    let plan := PlanNode.orderBy (.aggregate filtered [ascii "b"] [⟨.sum, ascii "a", []⟩])
      [(ascii "b", true)] none none
    ∃ ctx, compile Platform.integral plan 2 = .ok ctx ∧ ctx.schedule.length = 3 ∧
      Linked ctx.schedule ∧ ctx.schema.fields = scheduleFields ctx.breakers ctx.schedule ∧
      ctx.schema.fields = [⟨ascii "b", .string⟩, ⟨ascii "sum_a", .int64⟩] := by
  intro tableMeta filtered plan
  have hrun : (compile Platform.integral plan 2).toOption.map
      (fun ctx => (ctx.schedule.length, ctx.schema.fields)) =
        some (3, [⟨ascii "b", .string⟩, ⟨ascii "sum_a", .int64⟩]) := by decide
  obtain ⟨ctx, hok, hresult⟩ := compile_eq_ok hrun
  obtain ⟨hlength, hfields⟩ := Prod.mk.inj hresult
  obtain ⟨hlinked, -, -, -, hschema⟩ := (compile_correct Platform.integral plan).2 2 ctx hok
  exact ⟨ctx, hok, hlength, hlinked, hschema, hfields⟩

end ColumnarEngine
