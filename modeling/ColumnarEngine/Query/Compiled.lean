import ColumnarEngine.Query.Meaning

/-!
# Compilation preserves what a plan asks for

`PlanNode.Compiles` is the schedule that `BuildPipelines` makes of a node, as a list of pipelines
instead of a context with pointers. By induction on it, the rows that the schedule yields are an
answer of the plan (`Compiles.preserves`).
-/

namespace ColumnarEngine

open Found

/-- A transform at the end of the pipeline. -/
def PipelineSpec.push (p : PipelineSpec) (t : CompiledTransform) : PipelineSpec :=
  { p with transforms := p.transforms ++ [t] }

/-- The pipelines `ps`, then `p`, are what `BuildPipelines` makes of the node, with the breakers of
the heap between them; `s` are the columns of the node. -/
inductive PlanNode.Compiles (P : Platform) (heap : List Breaker) :
    PlanNode → Option (List Bytes) → List PipelineSpec → PipelineSpec → Schema → Prop
  | scan {columnNames : List Bytes} {tableMeta : MetadataTable} {required : Option (List Bytes)}
      {op : ScanOperator} {fields : List Field} {sink : Option SinkRef}
      (hop : ScanOperator.make (scanColumns columnNames tableMeta required) tableMeta = .ok op)
      (hfields : (scanColumns columnNames tableMeta required).mapM (scanField tableMeta) =
        .ok fields) :
      Compiles P heap (scan columnNames tableMeta) required []
        { source := some (.scan op), sink := sink } ⟨fields⟩
  | transform {child plan : PlanNode} {required inner : Option (List Bytes)}
      {ps : List PipelineSpec} {p : PipelineSpec} {s s' : Schema} {t : CompiledTransform}
      (hchild : Compiles P heap child inner ps p s)
      (hnode : AddsTransform P child plan required inner s t s') :
      Compiles P heap plan required ps (p.push t) s'
  | breaker {child plan : PlanNode} {required inner : Option (List Bytes)}
      {ps : List PipelineSpec} {q : PipelineSpec} {s s' : Schema} {b : Breaker} {ref : ℕ}
      {sink : Option SinkRef} (hchild : Compiles P heap child inner ps q s)
      (hnode : AddsBreaker child plan required inner s b s') (hb : heap[ref]? = some b) :
      Compiles P heap plan required (ps ++ [{ q with sink := some (.breaker ref) }])
        { source := some (.breaker ref), sink := sink } s'

variable {P : Platform} {plan child : PlanNode} {required inner : Option (List Bytes)}
  {ps : List PipelineSpec} {p q : PipelineSpec} {s s' : Schema} {heap : List Breaker}

/-! ## The schedule of a context -/

/-- One more breaker. -/
theorem PlanNode.Compiles.addBreaker (h : plan.Compiles P heap required ps p s) (b : Breaker) :
    plan.Compiles P (heap ++ [b]) required ps p s := by
  induction h with
  | scan hop hfields => exact .scan hop hfields
  | transform _ hnode ih => exact .transform ih hnode
  | breaker _ hnode hb ih =>
      have hlt := (List.getElem?_eq_some_iff.mp hb).1
      exact .breaker ih hnode ((List.getElem?_append_left hlt).trans hb)

/-- The columns of the node are what its pipelines produce. -/
theorem PlanNode.Compiles.fields_eq (h : plan.Compiles P heap required ps p s) :
    s.fields = scheduleFields heap (ps ++ [p]) := by
  induction h with
  | scan hop hfields =>
      obtain ⟨hmap, -⟩ := scan_fields hop hfields
      exact hmap.symm
  | transform _ hnode ih =>
      rw [hnode.fits.2, ih, scheduleFields_concat, scheduleFields_concat]
      simp [PipelineSpec.outputFields, PipelineSpec.push, transformsFields,
        PipelineSpec.sourceFields]
  | @breaker _ _ _ _ ps q _ _ b ref sink _ hnode hb ih =>
      have hsame : scheduleFields heap (ps ++ [{ q with sink := some (.breaker ref) }]) =
          scheduleFields heap (ps ++ [q]) := by
        rw [scheduleFields_concat, scheduleFields_concat]
        rfl
      rw [hnode.fits.2, ih, scheduleFields_concat _ (ps ++ _), hsame]
      simp [PipelineSpec.outputFields, PipelineSpec.sourceFields, transformsFields, hb]

namespace BuildContext

variable {ctx built : BuildContext}

/-- The pipelines that a call of `BuildPipelines` has completed, and the current one. -/
structure Leads (ctx built : BuildContext) (ps : List PipelineSpec) (p : PipelineSpec) :
    Prop where
  completed : ∃ refs, built.completedPipelines = ctx.completedPipelines ++ refs ∧
    (∀ ref ∈ refs, ctx.pipelines.length ≤ ref) ∧ built.Holds refs ps
  current : built.pipelines[ctx.currentPipeline]? = some p

theorem Leads.pushTransform (h : ctx.Leads built ps p) (hbuilds : ctx.Builds built)
    (hctx : ctx.Fresh) (t : CompiledTransform) (schema : Schema) :
    ctx.Leads { built.pushTransform t with schema := schema } ps (p.push t) := by
  obtain ⟨refs, hcompleted, hnew, hholds⟩ := h.completed
  refine ⟨⟨refs, hcompleted, hnew, hholds.of_eq fun ref href => ?_⟩, ?_⟩
  · apply List.getElem?_modify_ne
    have hlt := hctx.lt
    have hle := hnew ref href
    rw [hbuilds.current]
    omega
  · simp only [BuildContext.pushTransform, modifyCurrent, hbuilds.current,
      List.getElem?_modify_eq, h.current]
    rfl

theorem Leads.leavePipeline (h : ctx.enterPipeline.Leads built ps q)
    (hbuilds : ctx.enterPipeline.Builds built) (hctx : ctx.Fresh) (b : Breaker) (schema : Schema) :
    ∃ sink, ctx.Leads
      { built.leavePipeline ctx.currentPipeline ctx.enterPipeline.currentPipeline b with
        schema := schema }
      (ps ++ [{ q with sink := some (.breaker built.breakers.length) }])
      { source := some (.breaker built.breakers.length), sink := sink } := by
  obtain ⟨refs, hcompleted, hnew, hholds⟩ := h.completed
  obtain ⟨sink, hsink⟩ := hctx
  have hlt : ctx.currentPipeline < ctx.pipelines.length := (List.getElem?_eq_some_iff.mp hsink).1
  have hnew' : ∀ ref ∈ refs, ctx.pipelines.length + 1 ≤ ref := by simpa [enterPipeline] using hnew
  have hinner : ctx.enterPipeline.currentPipeline = ctx.pipelines.length := rfl
  have hcurrent := h.current
  rw [hinner] at hcurrent ⊢
  have houter : built.pipelines[ctx.currentPipeline]? = some { sink := sink } := by
    rw [hbuilds.others _ (by simp [enterPipeline]; omega) (by rw [hinner]; omega), ← hsink]
    exact List.getElem?_append_left hlt
  refine ⟨sink, ⟨refs ++ [ctx.pipelines.length], ?_, ?_, ?_⟩, ?_⟩
  · simp only [BuildContext.leavePipeline, hcompleted, enterPipeline, List.append_assoc]
  · intro ref href
    rcases List.mem_append.mp href with href | href
    · exact Nat.le_of_succ_le (hnew' ref href)
    · exact (List.mem_singleton.mp href).ge
  · refine List.rel_append (hholds.of_eq fun ref href => ?_) (.cons ?_ .nil)
    · have hle := hnew' ref href
      simp only [BuildContext.leavePipeline]
      rw [List.getElem?_modify_ne _ _ (by omega), List.getElem?_modify_ne _ _ (by omega)]
    · simp only [BuildContext.leavePipeline]
      rw [List.getElem?_modify_ne _ _ hlt.ne, List.getElem?_modify_eq, hcurrent]
      rfl
  · simp only [BuildContext.leavePipeline]
    rw [List.getElem?_modify_eq, List.getElem?_modify_ne _ _ hlt.ne', houter]
    rfl

end BuildContext

namespace PlanNode

variable {ctx built : BuildContext}

/-- What `BuildPipelines` of a node has done, as a schedule. -/
def Leaves (P : Platform) (plan : PlanNode) (required : Option (List Bytes))
    (ctx built : BuildContext) : Prop :=
  ctx.Builds built ∧
    ∃ ps p, ctx.Leads built ps p ∧ plan.Compiles P built.breakers required ps p built.schema

theorem Leaves.transform (h : child.Leaves P inner ctx built) (hctx : ctx.Fresh)
    {t : CompiledTransform} (hnode : AddsTransform P child plan required inner built.schema t s') :
    plan.Leaves P required ctx { built.pushTransform t with schema := s' } := by
  obtain ⟨hbuilds, ps, p, hleads, hcompiles⟩ := h
  obtain ⟨hfits, hfields⟩ := hnode.fits
  exact ⟨hbuilds.pushTransform hctx hfits hfields, ps, p.push t,
    hleads.pushTransform hbuilds hctx t s', .transform hcompiles hnode⟩

theorem Leaves.breaker (h : child.Leaves P inner ctx.enterPipeline built) (hctx : ctx.Fresh)
    {b : Breaker} (hnode : AddsBreaker child plan required inner built.schema b s') :
    plan.Leaves P required ctx
      { built.leavePipeline ctx.currentPipeline ctx.enterPipeline.currentPipeline b with
        schema := s' } := by
  obtain ⟨hbuilds, ps, p, hleads, hcompiles⟩ := h
  obtain ⟨hfits, hfields⟩ := hnode.fits
  obtain ⟨sink, hleads'⟩ := hleads.leavePipeline hbuilds hctx b s'
  refine ⟨hbuilds.leavePipeline hctx hfits hfields, _, _, hleads',
    .breaker (hcompiles.addBreaker b) hnode ?_⟩
  exact List.getElem?_concat_length

/-- **`BuildPipelines` makes the schedule of the node.** -/
theorem Built.leaves (h : plan.Built P ctx required built) (hctx : ctx.Fresh) :
    plan.Leaves P required ctx built := by
  induction h with
  | scan hop hfields =>
      obtain ⟨hmap, hlt⟩ := scan_fields hop hfields
      obtain ⟨sink, hsink⟩ := hctx
      refine ⟨BuildContext.builds_setScan ⟨sink, hsink⟩ hmap hlt, [], { source := _, sink := sink },
        ⟨⟨[], (List.append_nil _).symm, by simp, .nil⟩, ?_⟩, .scan hop hfields⟩
      simp [BuildContext.setScan, BuildContext.modifyCurrent, hsink]
  | aggregate _ hfs ih =>
      exact (ih (BuildContext.fresh_enterPipeline _)).breaker hctx (.aggregate hfs)
  | groupBy _ hne hkeys hfs ih =>
      exact (ih (BuildContext.fresh_enterPipeline _)).breaker hctx (.groupBy hne hkeys hfs)
  | filter _ hf ih => exact (ih hctx).transform hctx (.filter hf)
  | orderBy _ hsort ih =>
      exact (ih (BuildContext.fresh_enterPipeline _)).breaker hctx (.orderBy hsort)
  | limit _ ih => exact (ih hctx).transform hctx .limit
  | scalar _ hfs ih => exact (ih hctx).transform hctx (.scalar hfs)
  | drop _ _ ih => exact (ih hctx).transform hctx .drop
  | reorder _ hfound ih => exact (ih hctx).transform hctx (.reorder hfound)

/-- The schedule that `Collect` executes is that of the plan. -/
theorem compiles_of_compile {threads : ℕ} (h : compile P plan threads = .ok ctx) :
    ∃ ps p, ctx.schedule = ps ++ [p] ∧ plan.Compiles P ctx.breakers none ps p ctx.schema := by
  rw [compile, except_bind_eq_ok] at h
  obtain ⟨built, hbuilt, h⟩ := h
  obtain rfl := Except.ok.inj h
  obtain ⟨-, ps, p, hleads, hcompiles⟩ :=
    (built_of_buildPipelines hbuilt).leaves ⟨some .result, rfl⟩
  obtain ⟨refs, hcompleted, -, hholds⟩ := hleads.completed
  refine ⟨ps, p, ?_, hcompiles⟩
  have hlast : built.pipelineAt 0 = p := by
    rw [BuildContext.pipelineAt, List.getD_eq_getElem?_getD,
      show built.pipelines[0]? = some p from hleads.current]
    rfl
  simp only [BuildContext.schedule, hcompleted, collectContext, List.nil_append, List.map_append,
    List.map_singleton]
  rw [← hholds.map_eq, ← hlast]
  rfl

end PlanNode

/-! ## The last step of a schedule -/

theorem onRows_concat (ts : List TransformOperator) (t : TransformOperator) (row : Row) :
    onRows P (ts ++ [t]) row = (onRows P ts row).bind (t.onRow P) := by
  rw [onRows, List.foldlM_append]
  cases h : ts.foldlM (fun row t => t.onRow P row) row <;> simp [onRows, h]

namespace PipelineSpec

/-- Before a transform there is no `Limit` in a pipeline that supports only a last one. -/
theorem LimitLast.of_push {t : CompiledTransform} (h : (p.push t).LimitLast) :
    p.LimitLast ∧ p.finalLimit = none ∧ p.rowTransforms = p.operators := by
  have hoperators : (p.push t).operators = p.operators ++ [t.op] := by
    simp [operators, push]
  have hall : ∀ u ∈ p.operators, u.isLimit = false := by
    intro u hu
    apply (p.push t).not_isLimit_rowTransforms
    rw [LimitLast, hoperators] at h
    cases hlimit : (p.push t).finalLimit with
    | none =>
        rw [hlimit, Option.map_none, Option.toList_none, List.append_nil] at h
        exact h ▸ List.mem_append_left _ hu
    | some n =>
        rw [hlimit, Option.map_some, Option.toList_some] at h
        exact (List.append_inj' h rfl).1 ▸ hu
  have hrow : p.rowTransforms = p.operators := by
    rw [rowTransforms, List.takeWhile_eq_self_iff]
    simpa using hall
  have hnone : p.finalLimit = none := by
    rw [finalLimit]
    cases hlast : p.operators.getLast? with
    | none => rfl
    | some u =>
        have hu := hall u (List.mem_of_getLast? hlast)
        cases u with
        | limit n => simp [TransformOperator.isLimit] at hu
        | filter _ | scalar _ | drop _ | reorder _ => rfl
  refine ⟨?_, hnone, hrow⟩
  rw [LimitLast, hrow, hnone]
  simp

/-- The last transform of a pipeline that supports only a last `Limit`. -/
theorem LimitLast.push_eq {t : CompiledTransform} (h : (p.push t).LimitLast) :
    t.op.isLimit = false ∧ (p.push t).finalLimit = none ∧
        (p.push t).rowTransforms = p.rowTransforms ++ [t.op] ∨
      ∃ n, t.op = .limit n ∧ (p.push t).finalLimit = some n ∧
        (p.push t).rowTransforms = p.rowTransforms := by
  obtain ⟨-, -, hrow⟩ := h.of_push
  have hoperators : (p.push t).operators = p.operators ++ [t.op] := by
    simp [operators, push]
  have hfinal : (p.push t).finalLimit = t.op.limit? := by
    rw [finalLimit, hoperators, List.getLast?_concat]
    rfl
  rw [LimitLast, hoperators, hfinal] at h
  rw [hrow, hfinal]
  cases ht : t.op with
  | limit n =>
      rw [ht, TransformOperator.limit?, Option.map_some, Option.toList_some] at h
      exact .inr ⟨n, rfl, rfl, ((List.append_inj' h rfl).1).symm⟩
  | filter _ | scalar _ | drop _ | reorder _ =>
      have hnone : t.op.limit? = none := by rw [ht]; rfl
      rw [hnone, Option.map_none, Option.toList_none, List.append_nil, ht] at h
      exact .inl ⟨rfl, rfl, h.symm⟩

end PipelineSpec

section yields

variable {table rows : List Row}

/-- The sink of the last pipeline does not matter. -/
theorem Yields.setSink {sink : Option SinkRef}
    (h : Yields P heap table ps { p with sink := sink } rows) : Yields P heap table ps p rows := by
  cases h with
  | first hperm => exact .first (p := p) hperm
  | next hprev hb hemits => exact .next (p := p) hprev hb hemits

/-- **The last transform** of the last pipeline does to the rows what it does to a table. -/
theorem Yields.of_push {t : CompiledTransform} (hlimit : (p.push t).LimitLast)
    (h : Yields P heap table ps (p.push t) rows) :
    ∃ before, Yields P heap table ps p before ∧
      cut (p.push t).finalLimit rows = t.op.onTable P (cut p.finalLimit before) := by
  obtain ⟨-, hnone, -⟩ := hlimit.of_push
  have hstep : ∀ source : List Row,
      cut (p.push t).finalLimit (source.filterMap (onRows P (p.push t).rowTransforms)) =
        t.op.onTable P (source.filterMap (onRows P p.rowTransforms)) := by
    intro source
    rcases hlimit.push_eq with ⟨ht, hfinal, hrow⟩ | ⟨n, ht, hfinal, hrow⟩
    · rw [TransformOperator.onTable_eq ht, List.filterMap_filterMap, hfinal, hrow]
      apply List.filterMap_congr
      intro row _
      exact onRows_concat _ _ row
    · rw [hfinal, hrow, ht]
      rfl
  rw [hnone]
  cases h with
  | first hperm => exact ⟨_, .first hperm, hstep _⟩
  | next hprev hb hemits => exact ⟨_, .next hprev hb hemits, hstep _⟩

/-- A pipeline without transforms changes no row. -/
theorem PipelineSpec.of_transforms_nil (hp : p.transforms = []) :
    p.rowTransforms = [] ∧ p.finalLimit = none := by
  simp [rowTransforms, finalLimit, operators, hp]

/-- **The breaker** before a pipeline without transforms. -/
theorem Yields.of_breaker (hp : p.transforms = []) (h : Yields P heap table (ps ++ [q]) p rows) :
    ∃ before b, Yields P heap table ps q before ∧ q.sinkBreaker heap = some b ∧
      b.Emits P (cut q.finalLimit before) (cut p.finalLimit rows) := by
  obtain ⟨hrow, hfinal⟩ := PipelineSpec.of_transforms_nil hp
  generalize hps : ps ++ [q] = ps' at h
  cases h with
  | first hperm => simp at hps
  | @next ps₁ q₁ _ before emitted b hprev hb hemits =>
      obtain ⟨rfl, hq⟩ := List.append_inj' hps rfl
      obtain rfl := List.singleton_injective hq
      refine ⟨before, b, hprev, hb, ?_⟩
      rw [hfinal, hrow]
      have hrows : emitted.filterMap (onRows P []) = emitted := List.filterMap_some
      rw [hrows]
      exact hemits

/-- The rows of a scan without transforms, in any order. -/
theorem Yields.of_scan (hp : p.transforms = []) (h : Yields P heap table [] p rows) :
    (cut p.finalLimit rows).Perm table := by
  obtain ⟨hrow, hfinal⟩ := PipelineSpec.of_transforms_nil hp
  obtain ⟨arranged, hperm, rfl⟩ := h.of_nil
  have hrows : arranged.filterMap (onRows P []) = arranged := List.filterMap_some
  rwa [hfinal, hrow, hrows]

end yields

/-! ## Preservation -/

/-- Casts that match along some transforms match before the last one. -/
theorem CastsAlong.of_concat {fields : List Field} {selected : Bool} {ts : List CompiledTransform}
    {t : CompiledTransform} (h : CastsAlong fields selected (ts ++ [t])) :
    CastsAlong fields selected ts ∧ t.op.CastsMatch (typesOf (transformsFields fields ts)) := by
  induction ts generalizing fields selected with
  | nil => exact ⟨trivial, h.1⟩
  | cons t' ts ih =>
      obtain ⟨hcasts, hliterals, hrest⟩ := h
      obtain ⟨halong, hlast⟩ := ih hrest
      exact ⟨⟨hcasts, hliterals, halong⟩, hlast⟩

/-- What compilation leaves open for a pipeline behind `ps`. -/
def PipelineSpec.Sound (heap : List Breaker) (ps : List PipelineSpec) (p : PipelineSpec) : Prop :=
  p.LimitLast ∧ CastsAlong (p.sourceFields heap (scheduleFields heap ps)) false p.transforms

/-- What it leaves open for a schedule. -/
def SoundSchedule (heap : List Breaker) (ps : List PipelineSpec) (p : PipelineSpec) : Prop :=
  p.Sound heap ps ∧ ∀ before q after, ps = before ++ q :: after → q.Sound heap before

/-- The operator that the first pipeline of a schedule scans with. -/
def scanOf (ps : List PipelineSpec) (p : PipelineSpec) : Option SourceRef :=
  (ps ++ [p]).head?.bind PipelineSpec.source

/-- The rows scanned are the columns of the operator in the rows of the table. -/
structure ScanOperator.Offers (op : ScanOperator) (data table : List Row) : Prop where
  rows : table = data.map (keyOf op.columnIndices)
  typed : TypedRows (typesOf op.fields) table

/-- The columns of a scan, by name. -/
theorem ScanOperator.keyOf_columnIndices {columnNames : List Bytes} {tableMeta : MetadataTable}
    {op : ScanOperator} (h : ScanOperator.make columnNames tableMeta = .ok op) :
    keyOf op.columnIndices = tableMeta.schema.project columnNames := by
  rw [make, except_bind_eq_ok] at h
  obtain ⟨idxs, hidxs, h⟩ := h
  obtain rfl := Except.ok.inj h
  funext row
  rw [keyOf, Schema.project]
  refine map_eq_map_of_forall₂ ((forall₂_of_mapM_ok hidxs).imp fun name i hi => ?_)
  apply Schema.getD_eq_valueOf
  rw [Schema.getColumnIndexByName_eq_ok, Schema.names, MetadataTable.schema, List.map_map]
  exact findColumn_eq_ok.mp hi

namespace PlanNode

theorem AddsTransform.isExact_child {t : CompiledTransform}
    (h : AddsTransform P child plan required inner s t s') (hexact : plan.IsExact) :
    child.IsExact := by
  cases h with
  | filter _ => exact hexact.1
  | scalar _ => exact hexact.1
  | limit | drop | reorder _ => exact hexact

theorem AddsBreaker.isExact_child {b : Breaker} (h : AddsBreaker child plan required inner s b s')
    (hexact : plan.IsExact) : child.IsExact := by
  cases h with
  | aggregate _ | groupBy _ _ _ | orderBy _ => exact hexact

variable {data table rows : List Row}

/-- **Compilation preserves the meaning of a plan**: over a scan that offers the rows of the table,
what the schedule of a node yields, up to its last limit, is an answer of the node. -/
theorem Compiles.preserves (h : plan.Compiles P heap required ps p s) (hexact : plan.IsExact)
    (hheap : ∀ b ∈ heap, b.IsExact) (hsound : SoundSchedule heap ps p)
    (hscan : ∀ op, scanOf ps p = some (.scan op) → op.Offers data table)
    (hyields : Yields P heap table ps p rows) :
    TypedRows s.types (cut p.finalLimit rows) ∧
      plan.Answers P data required s (cut p.finalLimit rows) := by
  induction h generalizing rows with
  | @scan columnNames tableMeta required op fields sink hop hfields =>
      obtain ⟨hrows, htyped⟩ := hscan op rfl
      have hperm := hyields.of_scan rfl
      obtain ⟨hmap, -⟩ := scan_fields hop hfields
      have hselect : fields = tableMeta.schema.select
          (scanColumns columnNames tableMeta required) := by
        rw [← List.map_id fields]
        have hfields := (forall₂_of_mapM_ok hfields).imp fun _ _ hf => scanField_eq_ok hf
        exact map_eq_map_of_forall₂ hfields
      refine ⟨fun row hrow => hmap ▸ htyped row (hperm.subset hrow), ?_⟩
      rw [hselect]
      apply Answers.scan
      rwa [hrows, ScanOperator.keyOf_columnIndices hop] at hperm
  | @transform child plan required inner ps p s s' t hchild hnode ih =>
      obtain ⟨⟨hlimit, halong⟩, hbefore⟩ := hsound
      obtain ⟨halong, hcasts⟩ := CastsAlong.of_concat halong
      obtain ⟨before, hyields, hcut⟩ := hyields.of_push hlimit
      have hsame : scanOf ps (p.push t) = scanOf ps p := by cases ps <;> rfl
      obtain ⟨htyped, hanswers⟩ := ih (hnode.isExact_child hexact)
        ⟨⟨hlimit.of_push.1, halong⟩, hbefore⟩ (hsame ▸ hscan) hyields
      have hfields : s.fields = p.outputFields heap (scheduleFields heap ps) := by
        rw [hchild.fields_eq, scheduleFields_concat]
      replace hcasts : t.op.CastsMatch s.types := by
        rw [Schema.types, hfields]
        exact hcasts
      obtain ⟨hfits, houtput⟩ := hnode.fits
      obtain ⟨hiff, htypes⟩ := CompiledTransform.wellTyped_iff hfits
      rw [hcut]
      refine ⟨?_, hnode.answers hexact hcasts hanswers⟩
      rw [Schema.types, houtput, ← typesOf, ← htypes hcasts]
      exact TransformOperator.typedRows_onTable (hiff.mpr hcasts) htyped
  | @breaker child plan required inner ps q s s' b ref sink hchild hnode hb ih =>
      obtain ⟨-, hbefore⟩ := hsound
      obtain ⟨before, b', hyields, hb', hemits⟩ := hyields.of_breaker rfl
      obtain rfl : b = b' := Option.some.inj (hb.symm.trans hb')
      have hsame : scanOf (ps ++ [{ q with sink := some (.breaker ref) }])
          { source := some (.breaker ref), sink := sink } = scanOf ps q := by cases ps <;> rfl
      have hsound' : SoundSchedule heap ps q := by
        refine ⟨hbefore ps { q with sink := some (.breaker ref) } [] rfl, ?_⟩
        intro first q' after hps
        apply hbefore first q' (after ++ [{ q with sink := some (.breaker ref) }])
        rw [hps, List.append_assoc, List.cons_append]
      obtain ⟨htyped, hanswers⟩ :=
        ih (hnode.isExact_child hexact) hsound' (hsame ▸ hscan) hyields.setSink
      obtain ⟨hfits, houtput⟩ := hnode.fits
      refine ⟨?_, hnode.answers (hheap b (List.mem_of_getElem? hb)) htyped hanswers hemits⟩
      rw [Schema.types, houtput]
      exact hemits.typedRows hfits htyped

end PlanNode

/-! ## The examples -/

theorem isExact_sumA : sumA.IsExact := ⟨trivial, rfl⟩

theorem isExact_breakersA : ∀ b ∈ contextA.breakers, b.IsExact := by
  intro b hb
  obtain rfl := List.mem_singleton.mp hb
  intro f hf
  obtain rfl := List.mem_singleton.mp hf
  exact ⟨by decide, by decide⟩

theorem isExact_topB : topB.IsExact := by
  refine ⟨⟨trivial, rfl⟩, ?_⟩
  intro e he
  obtain rfl := List.mem_singleton.mp he
  trivial

theorem isExact_breakersB : ∀ b ∈ contextB.breakers, b.IsExact := by
  intro b hb
  rcases List.mem_pair.mp hb with rfl | rfl
  · intro f hf
    obtain rfl := List.mem_singleton.mp hf
    exact ⟨by decide, by decide⟩
  · trivial

/-- The rows of the example with the value 5 have the sum 5. -/
theorem preserves_sumA :
    ∃ s, sumA.Compiles Platform.integral contextA.breakers none [scanPipelineA] sumPipelineA s ∧
      sumA.Answers Platform.integral [[.int 3], [.int 5]] none s [[.int 5]] := by
  obtain ⟨ps, p, hps, hcompiles⟩ := PlanNode.compiles_of_compile compile_sumA
  have happend : [scanPipelineA] ++ [sumPipelineA] = ps ++ [p] := hps
  obtain ⟨rfl, hp⟩ := List.append_inj' happend rfl
  obtain rfl := List.singleton_injective hp
  have hsound : SoundSchedule contextA.breakers [scanPipelineA] sumPipelineA := by
    refine ⟨⟨by decide, trivial⟩, ?_⟩
    rintro (_ | ⟨q', before⟩) q after heq
    · obtain ⟨rfl, rfl⟩ := List.cons.inj heq
      exact ⟨by decide, trivial, trivial, trivial⟩
    · cases before <;> cases heq
  have hscan : ∀ op, scanOf [scanPipelineA] sumPipelineA = some (.scan op) →
      op.Offers [[.int 3], [.int 5]] [[.int 3], [.int 5]] := by
    rintro op ⟨⟩
    refine ⟨by decide, ?_⟩
    intro row hrow
    rcases List.mem_pair.mp hrow with rfl | rfl
    · exact .cons (by decide) .nil
    · exact .cons (by decide) .nil
  exact ⟨_, hcompiles,
    (hcompiles.preserves isExact_sumA isExact_breakersA hsound hscan yields_sumA).2⟩

end ColumnarEngine
