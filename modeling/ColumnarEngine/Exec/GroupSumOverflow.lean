import ColumnarEngine.Exec.SumOverflow

/-!
# The additions of SUM and AVG in GROUP BY

The loop of `Update` adds the rows of a batch to the states of their groups, and the merge adds the
groups of the threads `1 ..` to those of thread 0, in the order of the threads. So all additions fit
the states iff for every key tuple the partial sums of every thread and of the threads do
(`GroupBySinkSourceOperator.addsFit_iff`).
-/

namespace ColumnarEngine

open Found

/-! ## The sums of the groups -/

namespace AggregationFunction

/-- The partial sums of every group fit. -/
def GroupSumsFit (f : AggregationFunction) (width : ℕ) (key : Row → Row) (rows : List Row) :
    Prop :=
  ∀ k, PrefixSumsFit width (f.integers (rows.filter fun r => key r = k))

/-- The exact sum of one group. -/
def groupSum (f : AggregationFunction) (key : Row → Row) (rs : Multiset Row) (k : Row) : ℤ :=
  exactSum ((group key rs k).map f.argument)

variable {f : AggregationFunction} {width : ℕ} {key : Row → Row}

theorem groupSum_coe (rows : List Row) (k : Row) :
    f.groupSum key rows k = (f.integers (rows.filter fun r => key r = k)).sum := by
  simp [groupSum, group, exactSum, integers, Function.comp_def]

theorem groupSum_add (rs rs' : Multiset Row) (k : Row) :
    f.groupSum key (rs + rs') k = f.groupSum key rs k + f.groupSum key rs' k := by
  rw [groupSum, group_add, Multiset.map_add, exactSum_add]
  rfl

theorem groupSum_sum (rs : ℕ → Multiset Row) (n : ℕ) (k : Row) :
    f.groupSum key (∑ t ∈ Finset.range n, rs t) k =
      ∑ t ∈ Finset.range n, f.groupSum key (rs t) k := by
  induction n with
  | zero => rfl
  | succ n ih => rw [Finset.sum_range_succ, groupSum_add, ih, Finset.sum_range_succ]

theorem groupSum_eq_zero {rs : Multiset Row} {k : Row} (h : group key rs k = 0) :
    f.groupSum key rs k = 0 := by
  rw [groupSum, h]
  rfl

theorem groupSumsFit_nil : f.GroupSumsFit width key [] := fun _ => prefixSumsFit_nil width

theorem GroupSumsFit.of_initial {rows rows' : List Row} (hle : rows <+: rows')
    (h : f.GroupSumsFit width key rows') : f.GroupSumsFit width key rows := by
  intro k
  exact (h k).of_initial ((hle.filter _).map _)

/-- The sum of each group fits. -/
theorem GroupSumsFit.sum {rows : List Row} (h : f.GroupSumsFit width key rows) (k : Row) :
    InWidth width (f.groupSum key rows k) := by
  rw [groupSum_coe]
  exact (h k).sum

/-- One more row is added to the sum of its group. -/
theorem groupSumsFit_concat {rows : List Row} {r : Row} :
    f.GroupSumsFit width key (rows ++ [r]) ↔ f.GroupSumsFit width key rows ∧
      InWidth width (f.groupSum key rows (key r) + (f.argument r).toInt) := by
  have hself : f.integers ((rows ++ [r]).filter fun r' => key r' = key r) =
      f.integers (rows.filter fun r' => key r' = key r) ++ [(f.argument r).toInt] := by
    simp [integers]
  constructor
  · intro h
    refine ⟨h.of_initial (List.prefix_append _ _), ?_⟩
    have hr := h (key r)
    rw [hself, prefixSumsFit_concat, ← groupSum_coe] at hr
    exact hr.2
  · rintro ⟨h, hr⟩ k
    by_cases hk : key r = k
    · subst hk
      rw [hself, prefixSumsFit_concat, ← groupSum_coe]
      exact ⟨h _, hr⟩
    · have hother : (rows ++ [r]).filter (fun r' => key r' = k) =
          rows.filter fun r' => key r' = k := by simp [hk]
      rw [hother]
      exact h k

end AggregationFunction

/-! ## One aggregation function -/

namespace GroupedAggregationFunction

variable {P : Platform} {key : Row → Row} {f : GroupedAggregationFunction} {width : ℕ}

/-- The loop of `Update` over rows that know their groups. -/
theorem updateStates_fits_iff (hexact : f.kind.Exact) (hk : width ∈ f.kind.sumWidth)
    {ks : List Row} (hks : ks.Nodup) {rows : List Row} {gids : List ℕ}
    (hids : List.Forall₂ (fun r g => ks[g]? = some (key r)) rows gids) :
    ∀ {old : List Row} {states : List f.kind.State},
      (∀ r ∈ rows, f.kind.Accepts (f.argument r) ∧ InWidth width (f.argument r).toInt) →
      Tracks f.kind.Represents key f.argument ks (old : Multiset Row) states →
      f.GroupSumsFit width key old →
      (MeetsAll (fun l e => modifyAt l e.2 fun s => (f.kind.accumulator P).step s e.1)
          (fun l e => ∀ s, l[e.2]? = some s → f.kind.StepFits s e.1) states
          ((rows.map f.argument).zip gids) ↔
        f.GroupSumsFit width key (old ++ rows)) := by
  induction hids with
  | nil =>
      intro old states _ _ hold
      exact iff_of_true trivial (by rwa [List.append_nil])
  | @cons r g rows gids hg _ ih =>
      intro old states hrows htracks hold
      rw [List.forall_mem_cons] at hrows
      obtain ⟨⟨haccepts, hr⟩, hrows⟩ := hrows
      obtain ⟨s, hs, hrep⟩ := htracks.exists_state hg
      have hfits : f.kind.StepFits s (f.argument r) ↔
          f.GroupSumsFit width key (old ++ [r]) := by
        rw [AggregateKind.stepFits_iff hk hrep (hold.sum _) hr,
          AggregationFunction.groupSumsFit_concat]
        exact (and_iff_right hold).symm
      have hstep := htracks.step (AggregateKind.summarizes (P := P) hexact) hks hg haccepts
      have hcoe : r ::ₘ (old : Multiset Row) = (old ++ [r] : List Row) :=
        Multiset.coe_eq_coe.mpr (List.perm_append_singleton r old).symm
      rw [hcoe] at hstep
      have hmodify : modifyAt states g (fun s => (f.kind.accumulator P).step s (f.argument r)) =
          some (states.modify g fun s => (f.kind.accumulator P).step s (f.argument r)) :=
        if_pos (List.getElem?_eq_some_iff.mp hs).1
      rw [List.map_cons, List.zip_cons_cons]
      constructor
      · rintro ⟨hfirst, hrest⟩
        have hnext := hfits.mp (hfirst s hs)
        have hall := (ih hrows hstep hnext).mp (hrest _ hmodify)
        rwa [List.append_assoc] at hall
      · intro hall
        rw [List.append_cons] at hall
        have hnext := hall.of_initial (List.prefix_append _ _)
        refine ⟨?_, ?_⟩
        · intro s' hs'
          obtain rfl := Option.some.inj (hs.symm.trans hs')
          exact hfits.mpr hnext
        · intro states' hstates'
          obtain rfl := Option.some.inj (hmodify.symm.trans hstates')
          exact (ih hrows hstep hnext).mpr hall

/-- The additions of `Update` on states that run parallel to the key tuples. -/
theorem updateFits_iff {b : RecordBatch} (hb : b.WellFormed) (hf : f.Declared b.types)
    (hargs : f.ArgumentsFit b.rows) {tid : ℕ} {ks : List Row} (hks : ks.Nodup) {gids : List ℕ}
    (hids : List.Forall₂ (fun r g => ks[g]? = some (key r)) b.rows gids) {old : List Row}
    {states : List f.kind.State} (hstates : f.threadStates[tid]? = some states)
    (htracks : Tracks f.kind.Represents key f.argument ks (old : Multiset Row) states)
    (hold : ∀ width ∈ f.kind.sumWidth, f.GroupSumsFit width key old) :
    f.UpdateFits P b gids tid ↔
      ∀ width ∈ f.kind.sumWidth, f.GroupSumsFit width key (old ++ b.rows) := by
  have hinputs := hf.inputs_eq hb
  have hloop : f.UpdateFits P b gids tid ↔
      MeetsAll (fun l e => modifyAt l e.2 fun s => (f.kind.accumulator P).step s e.1)
        (fun l e => ∀ s, l[e.2]? = some s → f.kind.StepFits s e.1) states
        ((b.rows.map f.argument).zip gids) := by
    constructor
    · exact fun h => h states _ hstates hinputs
    · intro h states' vs hstates' hvs
      obtain rfl := Option.some.inj (hstates.symm.trans hstates')
      obtain rfl := Option.some.inj (hinputs.symm.trans hvs)
      exact h
  rw [hloop]
  cases hwidth : f.kind.sumWidth with
  | none =>
      have hnone := (AggregateKind.fits_of_sumWidth_eq_none hwidth).1
      refine iff_of_true (meetsAll_of_forall ?_ _ _) (by simp)
      exact fun l e s _ => hnone s e.1
  | some width =>
      simp only [Option.mem_some_iff, forall_eq']
      exact updateStates_fits_iff hf.exact hwidth hks hids
        (fun r hr => ⟨hf.accepts (hb.rows_typed r hr), hargs width hwidth r hr⟩) htracks
        (hold width hwidth)

/-- The addition of `CombineState` of a group to the group with the same key. -/
theorem combineFits_iff {ks ks' : List Row} {rs rs' : Multiset Row} {thread i g : ℕ} {k : Row}
    (hi : ks'[i]? = some k) (hg : ks[g]? = some k) (h : f.Holds key 0 ks rs)
    (h' : f.Holds key thread ks' rs')
    (hfits : ∀ width ∈ f.kind.sumWidth, InWidth width (f.groupSum key rs k))
    (hfits' : ∀ width ∈ f.kind.sumWidth, InWidth width (f.groupSum key rs' k)) :
    f.CombineFits thread i g ↔
      ∀ width ∈ f.kind.sumWidth, InWidth width (f.groupSum key (rs + rs') k) := by
  obtain ⟨states, hstates, htracks⟩ := h
  obtain ⟨states', hstates', htracks'⟩ := h'
  obtain ⟨s, hs, hrep⟩ := htracks.exists_state hg
  obtain ⟨s', hs', hrep'⟩ := htracks'.exists_state hi
  have hone : f.CombineFits thread i g ↔ f.kind.MergeFits s s' := by
    constructor
    · intro h
      exact h _ _ _ _ hstates' hs' hstates hs
    · intro h src s₁ glob s₂ hsrc hs₁ hglob hs₂
      obtain rfl := Option.some.inj (hstates'.symm.trans hsrc)
      obtain rfl := Option.some.inj (hstates.symm.trans hglob)
      obtain rfl := Option.some.inj (hs'.symm.trans hs₁)
      obtain rfl := Option.some.inj (hs.symm.trans hs₂)
      exact h
  rw [hone]
  cases hwidth : f.kind.sumWidth with
  | none =>
      exact iff_of_true ((AggregateKind.fits_of_sumWidth_eq_none hwidth).2 s s') (by simp)
  | some width =>
      simp only [Option.mem_some_iff, forall_eq', AggregationFunction.groupSum_add]
      exact AggregateKind.mergeFits_iff hwidth hrep hrep' (hfits width hwidth)
        (hfits' width hwidth)

end GroupedAggregationFunction

namespace GroupBySinkSourceOperator

variable {P : Platform} {types keyTypes : List ColumnType} {idxs : List ℕ}
  {aggs : List AggregationFunction} {n : ℕ} {kst : ℕ → List Row} {rst : ℕ → Multiset Row}

/-! ## The additions of `Sink` -/

/-- The additions of a `Sink` call. -/
theorem sinkFits_iff (hkeys : KeyColumns types idxs keyTypes) (haggs : ∀ f ∈ aggs, f.Declared types)
    {op : GroupBySinkSourceOperator} (h : Holds types idxs keyTypes aggs n kst rst op)
    {b : RecordBatch} (hb : b.WellFormed) (hbt : b.types = types)
    (hargs : ∀ f ∈ aggs, f.ArgumentsFit b.rows) {tid : ℕ} (htid : tid < n)
    (hbound : numKeys (keyOf idxs) (rst tid + b.rows) < 2 ^ 32) {old : List Row}
    (hold : rst tid = old)
    (hfits : ∀ f ∈ aggs, ∀ width ∈ f.kind.sumWidth, f.GroupSumsFit width (keyOf idxs) old) :
    op.SinkFits P b tid ↔ ∀ f ∈ aggs, ∀ width ∈ f.kind.sumWidth,
      f.GroupSumsFit width (keyOf idxs) (old ++ b.rows) := by
  obtain ⟨loc, keys, a, hloc, hcomposite, ha, hcovers, -, hnum, hids, -⟩ :=
    exists_assignment hkeys h hb hbt htid hbound
  subst hbt
  rw [List.take_length] at hcovers hids
  have hnew : ∀ k ∈ a.newGroupIndices.map fun i => keyOf idxs (b.rowAt i),
      group (keyOf idxs) (rst tid) k = 0 := by
    intro k hk
    apply (h.thread tid loc hloc).covers.group_eq_zero
    intro hkey
    exact List.disjoint_of_nodup_append hcovers.nodup hkey hk
  have hnum' : a.numGroups =
      (kst tid ++ a.newGroupIndices.map fun i => keyOf idxs (b.rowAt i)).length := by
    simp [hnum]
  have hsink : op.SinkFits P b tid ↔ ∀ g ∈ op.aggFuncs, ∀ g',
      g.resize P a.numGroups tid = some g' → g'.UpdateFits P b a.groupIds tid := by
    constructor
    · exact fun h => h loc keys a hloc hcomposite ha
    · intro h loc' keys' a' hloc' hcomposite' ha'
      obtain rfl := Option.some.inj (hloc.symm.trans hloc')
      obtain rfl := Option.some.inj (hcomposite.symm.trans hcomposite')
      obtain rfl := Option.some.inj (ha.symm.trans ha')
      exact h
  rw [hsink, ← h.specs, List.forall_mem_map]
  apply forall₂_congr
  intro g hg
  have hmem : g.toAggregationFunction ∈ aggs := h.specs ▸ List.mem_map_of_mem hg
  have hholds := h.funcs g hg tid htid
  have hlt : tid < g.threadStates.length :=
    (List.getElem?_eq_some_iff.mp hholds.choose_spec.1).1
  obtain ⟨states, hresize, htracks⟩ := GroupedAggregationFunction.resize_holds (P := P)
    (haggs _ hmem).exact hnew hholds
  rw [← hnum'] at hresize
  rw [hold] at htracks
  have hupdate := GroupedAggregationFunction.updateFits_iff (P := P)
    (f := { g with threadStates := g.threadStates.set tid states }) hb (haggs _ hmem)
    (hargs _ hmem) hcovers.nodup hids (List.getElem?_set_self hlt) htracks (hfits _ hmem)
  refine Iff.trans ?_ hupdate
  constructor
  · exact fun hall => hall _ hresize
  · intro hone g' hg'
    obtain rfl := Option.some.inj (hresize.symm.trans hg')
    exact hone

/-- The additions of a run of `Sink` calls. -/
theorem sinksFit_iff (hkeys : KeyColumns types idxs keyTypes) (haggs : ∀ f ∈ aggs, f.Declared types)
    {calls : List (RecordBatch × ℕ)} (hcalls : ValidCalls types n calls)
    (hargs : ∀ f ∈ aggs, f.ArgumentsFit (sunkRows calls))
    (hbound : numKeys (keyOf idxs) (sunkRows calls) < 2 ^ 32) :
    MeetsAll (fun op c => op.sink P c.1 c.2) (fun op c => op.SinkFits P c.1 c.2)
        (create idxs keyTypes aggs n) calls ↔
      ∀ tid < n, ∀ f ∈ aggs, ∀ width ∈ f.kind.sumWidth,
        f.GroupSumsFit width (keyOf idxs) (threadRowList calls tid) := by
  refine meetsAll_iff (I := fun done op => ∃ ks, Holds types idxs keyTypes aggs n ks
      (threadRows done) op)
    (F := fun done => ∀ tid < n, ∀ f ∈ aggs, ∀ width ∈ f.kind.sumWidth,
      f.GroupSumsFit width (keyOf idxs) (threadRowList done tid))
    ⟨_, create_holds types idxs keyTypes aggs n⟩ ?_ ?_ ?_
  · exact fun tid _ f _ width _ => AggregationFunction.groupSumsFit_nil
  · intro done rest h tid htid f hf width hwidth
    apply (h tid htid f hf width hwidth).of_initial
    rw [threadRowList_append]
    exact List.prefix_append _ _
  · rintro done ⟨b, tid⟩ rest hl op ⟨ks, hholds⟩ hdone
    obtain ⟨hb, hbt, htid⟩ := hcalls (b, tid) (by simp [hl])
    have hsub := threadRows_append_le hl
    rw [threadRows_append, Function.update_self] at hsub
    have hnum : numKeys (keyOf idxs) (threadRows done tid + b.rows) < 2 ^ 32 :=
      (numKeys_mono hsub).trans_lt hbound
    have hargs' : ∀ f ∈ aggs, f.ArgumentsFit b.rows := by
      intro f hf width hwidth r hr
      exact hargs f hf width hwidth r (List.mem_flatMap.mpr ⟨(b, tid), by simp [hl], hr⟩)
    obtain ⟨op', ks', hop', hholds'⟩ := sink_holds (P := P) hkeys haggs hholds hb hbt htid hnum
    refine ⟨?_, op', hop', _, by rw [threadRows_append]; exact hholds'⟩
    rw [sinkFits_iff hkeys haggs hholds hb hbt hargs' htid hnum rfl (hdone tid htid)]
    exact (forall_threadRowList_concat_iff (Q := fun rows => ∀ f ∈ aggs, ∀ width ∈ f.kind.sumWidth,
      f.GroupSumsFit width (keyOf idxs) rows) htid hdone).symm

/-! ## The additions of the merge -/

section merge

variable {key : Row → Row} {thread : ℕ}

/-- The sum of a group fits, for every function that adds. -/
def GroupFits (aggs : List AggregationFunction) (key : Row → Row) (rs : Multiset Row) (k : Row) :
    Prop :=
  ∀ f ∈ aggs, ∀ width ∈ f.kind.sumWidth, InWidth width (f.groupSum key rs k)

/-- Rows without the group do not count. -/
theorem groupFits_add_iff {rs rs' : Multiset Row} {k : Row} (h : group key rs' k = 0) :
    GroupFits aggs key (rs + rs') k ↔ GroupFits aggs key rs k := by
  simp [GroupFits, AggregationFunction.groupSum_add, AggregationFunction.groupSum_eq_zero h]

/-- The additions of one entry of another thread's hash table. -/
theorem mergeEntryFits_iff (haggs : ∀ f ∈ aggs, f.Declared types)
    (htyped : ∀ k ∈ kst thread, List.Forall₂ Value.HasType k keyTypes) {ks : List Row}
    {rs : Multiset Row} {m : Merge} (hks : ∀ k ∈ ks, List.Forall₂ Value.HasType k keyTypes)
    (h : m.Holds keyTypes key aggs n kst rst ks rs) (hpos : 0 < thread) (hlt : thread < n)
    {i : ℕ} {k : Row} (hi : (kst thread)[i]? = some k) (hlen : ks.length < 2 ^ 32)
    (hfits : GroupFits aggs key rs k) (hfits' : GroupFits aggs key (rst thread) k) :
    MergeEntryFits P thread m (encodeKey keyTypes k, i) ↔
      GroupFits aggs key (rs + rst thread) k := by
  by_cases hmem : k ∈ ks
  · obtain ⟨gid, hgid⟩ := List.getElem?_of_mem hmem
    rw [MergeEntryFits, h.table, lookup_tableFor h.covers.nodup hks hgid]
    dsimp only
    rw [GroupFits, ← h.specs, List.forall_mem_map]
    apply forall₂_congr
    intro g hg
    have hagg : g.toAggregationFunction ∈ aggs := h.specs ▸ List.mem_map_of_mem hg
    exact GroupedAggregationFunction.combineFits_iff hi hgid (h.global g hg)
      (h.others g hg thread hpos hlt) (hfits _ hagg) (hfits' _ hagg)
  · -- a new group: its state is value-initialised
    have hzero : ∀ k' ∈ [k], group key rs k' = 0 := by
      simpa using h.covers.group_eq_zero hmem
    rw [MergeEntryFits, h.table,
      lookup_tableFor_eq_none hks (htyped k (List.mem_of_getElem? hi)) hmem, h.num,
      toUInt32_of_lt hlen]
    dsimp only
    rw [GroupFits, ← h.specs, List.forall_mem_map]
    apply forall₂_congr
    intro g hg
    have hagg : g.toAggregationFunction ∈ aggs := h.specs ▸ List.mem_map_of_mem hg
    have hglobal := h.global g hg
    obtain ⟨states, hstates, htracks⟩ := GroupedAggregationFunction.resize_holds (P := P)
      (haggs _ hagg).exact hzero hglobal
    rw [List.length_append, List.length_singleton] at hstates
    obtain ⟨states₀, hstates₀, -⟩ := hglobal
    have hlast : (ks ++ [k])[ks.length]? = some k := by simp
    have hcombine := GroupedAggregationFunction.combineFits_iff
      (f := { g with threadStates := g.threadStates.set 0 states }) hi hlast
      (.set_self (List.getElem?_eq_some_iff.mp hstates₀).1 htracks)
      ((h.others g hg thread hpos hlt).set_ne hpos.ne) (hfits _ hagg) (hfits' _ hagg)
    refine Iff.trans ?_ hcombine
    constructor
    · exact fun hall => hall _ hstates
    · intro hone f' hf'
      obtain rfl := Option.some.inj (hstates.symm.trans hf')
      exact hone

/-- The rows merged so far have none of the group of an entry that is still to come. -/
theorem group_mergedRows_eq_zero {rs : Multiset Row} {ks : List Row} {done : HashTable} {k : Row}
    (hk : ∀ e ∈ done, entryKey ks e ≠ k) : group key (mergedRows key rs ks done) k = 0 := by
  induction done with
  | nil => rfl
  | cons e done ih =>
      rw [List.forall_mem_cons] at hk
      have hrest := ih hk.2
      rw [mergedRows] at hrest ⊢
      rw [List.map_cons, List.map_cons, List.sum_cons, group_add, group_group_of_ne hk.1.symm, hrest,
        add_zero]

/-- The additions of the loop over the hash table of another thread. -/
theorem mergeEntriesFit_iff (ord : IterationOrder) (haggs : ∀ f ∈ aggs, f.Declared types)
    {total : Multiset Row} (htyped : ∀ r ∈ total, List.Forall₂ Value.HasType (key r) keyTypes)
    (hbound : numKeys key total < 2 ^ 32) {ks : List Row} {rs : Multiset Row} {m : Merge}
    (h : m.Holds keyTypes key aggs n kst rst ks rs) (hpos : 0 < thread) (hlt : thread < n)
    (hle : rs + rst thread ≤ total) {s : GroupByThreadState}
    (hs : s.Holds keyTypes key (kst thread) (rst thread))
    (hbuilders : s.keyBuilders.map ColumnBuilder.content = tableOf keyTypes (kst thread))
    (hfits : ∀ k, GroupFits aggs key rs k) (hfits' : ∀ k, GroupFits aggs key (rst thread) k) :
    MeetsAll (mergeEntry P thread (s.keyBuilders.map ColumnBuilder.finish))
        (MergeEntryFits P thread) m (ord.order s.hashTable) ↔
      ∀ k ∈ kst thread, GroupFits aggs key (rs + rst thread) k := by
  have hperm := map_entryKey_perm ord hs
  have hall : (∀ k ∈ kst thread, GroupFits aggs key (rs + rst thread) k) ↔
      ∀ e ∈ ord.order s.hashTable,
        GroupFits aggs key (rs + rst thread) (entryKey (kst thread) e) := by
    simp only [← hperm.mem_iff, List.forall_mem_map]
  rw [hall]
  refine meetsAll_iff
    (I := fun done m => ∃ ks', Merge.Holds keyTypes key aggs n kst rst ks'
      (rs + mergedRows key (rst thread) (kst thread) done) m)
    (F := fun done => ∀ e ∈ done,
      GroupFits aggs key (rs + rst thread) (entryKey (kst thread) e))
    ⟨ks, by simpa [mergedRows] using h⟩ (by simp) ?_ ?_
  · exact fun done rest h e he => h e (List.mem_append_left rest he)
  · rintro done e rest hl m₁ ⟨ks₁, h₁⟩ hdone
    refine ⟨?_, mergeEntries_step ord haggs htyped hbound hpos hlt hle hs hbuilders hl h₁⟩
    have he : e ∈ tableFor keyTypes (kst thread) := by
      rw [← hs.table, ← (ord.perm _).mem_iff, hl]
      simp
    obtain ⟨hi, hkey⟩ := getElem?_of_mem_tableFor he
    have hnodup := hperm.nodup_iff.mpr hs.covers.nodup
    rw [hl, List.map_append, List.map_cons] at hnodup
    have hnew : group key (mergedRows key (rst thread) (kst thread) done)
        (entryKey (kst thread) e) = 0 := by
      apply group_mergedRows_eq_zero
      intro e' he' heq
      exact List.disjoint_of_nodup_append hnodup (List.mem_map_of_mem he')
        (heq ▸ List.mem_cons_self)
    have hle₁ := le_trans (add_le_add_right (mergedRows_le ord hs hl) rs) hle
    have hlen : ks₁.length < 2 ^ 32 := by
      rw [h₁.covers.length_eq]
      exact (numKeys_mono hle₁).trans_lt hbound
    have hentry := mergeEntryFits_iff (P := P) haggs
      (hs.covers.forall_of_le (le_trans (Multiset.le_add_left _ _) hle) htyped)
      (h₁.covers.forall_of_le hle₁ htyped) h₁ hpos hlt hi hlen
      ((groupFits_add_iff hnew).mpr (hfits _)) (hfits' _)
    rw [← hkey, add_right_comm, groupFits_add_iff hnew] at hentry
    refine hentry.trans ?_
    rw [List.forall_mem_append, List.forall_mem_singleton]
    exact (and_iff_right hdone).symm

/-- The additions of the merge of another thread. -/
theorem mergeThreadFits_iff (ord : IterationOrder) (haggs : ∀ f ∈ aggs, f.Declared types)
    {total : Multiset Row} (htyped : ∀ r ∈ total, List.Forall₂ Value.HasType (key r) keyTypes)
    (hbound : numKeys key total < 2 ^ 32) {ks : List Row} {rs : Multiset Row} {m : Merge}
    (h : m.Holds keyTypes key aggs n kst rst ks rs) (hpos : 0 < thread) (hlt : thread < n)
    (hle : rs + rst thread ≤ total) {s : GroupByThreadState}
    (hs : s.Holds keyTypes key (kst thread) (rst thread))
    (hfits : ∀ k, GroupFits aggs key rs k) (hfits' : ∀ k, GroupFits aggs key (rst thread) k) :
    MergeThreadFits P ord m (s, thread) ↔ ∀ k, GroupFits aggs key (rs + rst thread) k := by
  constructor
  · intro hmerge k
    by_cases hk : k ∈ kst thread
    · have hnum : s.numGroups ≠ 0 := by
        rw [hs.num]
        exact (List.length_pos_of_mem hk).ne'
      exact (mergeEntriesFit_iff ord haggs htyped hbound h hpos hlt hle hs
        (content_of_numGroups_ne hs hnum) hfits hfits').mp (hmerge hnum) k hk
    · exact (groupFits_add_iff (hs.covers.group_eq_zero hk)).mpr (hfits k)
  · intro hall hnum
    exact (mergeEntriesFit_iff ord haggs htyped hbound h hpos hlt hle hs
      (content_of_numGroups_ne hs hnum) hfits hfits').mpr fun k _ => hall k

end merge

/-- The additions of `Finalize`: the groups of the threads that have been merged fit. -/
theorem finalizeFits_iff (ord : IterationOrder) (hkeys : KeyColumns types idxs keyTypes)
    (haggs : ∀ f ∈ aggs, f.Declared types) (hn : 0 < n)
    (hbound : numKeys (keyOf idxs) (∑ t ∈ Finset.range n, rst t) < 2 ^ 32)
    {op : GroupBySinkSourceOperator} (h : Holds types idxs keyTypes aggs n kst rst op)
    (hfits : ∀ tid < n, ∀ k, GroupFits aggs (keyOf idxs) (rst tid) k) :
    op.FinalizeFits P ord ↔
      ∀ d ≤ n, ∀ k, GroupFits aggs (keyOf idxs) (∑ t ∈ Finset.range d, rst t) k := by
  have hpos : 0 < op.threadStates.length := h.threads ▸ hn
  have h0 : op.threadStates[0]? = some op.threadStates[0] := List.getElem?_eq_getElem hpos
  have hfinal : op.FinalizeFits P ord ↔ MeetsAll (mergeThread P ord) (MergeThreadFits P ord)
      ⟨{ op.threadStates[0] with
        keyBuilders := op.ensureBuilders op.threadStates[0].keyBuilders }, op.aggFuncs⟩
      (op.threadStates.zipIdx.drop 1) := by
    constructor
    · exact fun hfinal => hfinal _ h0
    · intro hall glob hglob
      obtain rfl := Option.some.inj (h0.symm.trans hglob)
      exact hall
  have hlength : 1 + (op.threadStates.zipIdx.drop 1).length = n := by
    rw [List.length_drop, List.length_zipIdx, ← h.threads]
    omega
  rw [hfinal, ← hlength]
  refine meetsAll_iff
    (I := fun done m => ∃ ks, Merge.Holds keyTypes (keyOf idxs) aggs n kst rst ks
      (∑ t ∈ Finset.range (1 + done.length), rst t) m)
    (F := fun done => ∀ d ≤ 1 + done.length, ∀ k,
      GroupFits aggs (keyOf idxs) (∑ t ∈ Finset.range d, rst t) k)
    ⟨kst 0, by
      rw [List.length_nil, Finset.sum_range_one]
      exact h.merge_start hn h0⟩
    ?_ ?_ ?_
  · intro d hd k
    rcases Nat.le_one_iff_eq_zero_or_eq_one.mp hd with rfl | rfl
    · exact fun f _ width _ => inWidth_zero width
    · rw [Finset.sum_range_one]
      exact hfits 0 hn k
  · intro done rest hall d hd
    rw [List.length_append] at hall
    exact hall d (by omega)
  · rintro done ⟨s, tid⟩ rest hl m ⟨ks, hm⟩ hdone
    obtain ⟨hs, rfl⟩ := zipIdx_drop_split hl
    have htid : 1 + done.length < n := h.threads ▸ (List.getElem?_eq_some_iff.mp hs).1
    have hthread := h.thread _ _ hs
    have hle : ∑ t ∈ Finset.range (1 + done.length), rst t + rst (1 + done.length) ≤
        ∑ t ∈ Finset.range n, rst t := sum_range_add_le htid
    have hpos' : 0 < 1 + done.length := by omega
    rw [List.length_append, List.length_singleton, ← Nat.add_assoc, Finset.sum_range_succ]
    refine ⟨?_, mergeThread_holds ord haggs (h.keys_typed hkeys) hbound hm hpos' htid hle hthread⟩
    rw [mergeThreadFits_iff (P := P) ord haggs (h.keys_typed hkeys) hbound hm hpos' htid hle hthread
      (hdone _ le_rfl) (hfits _ htid), ← Finset.sum_range_succ]
    constructor
    · intro hnext d hd
      rcases Nat.le_succ_iff.mp hd with hd | rfl
      · exact hdone d hd
      · exact hnext
    · exact fun hall => hall _ le_rfl

/-- **The additions of a run**, with the merge of the threads. -/
theorem addsFit_iff (ord : IterationOrder) (hkeys : KeyColumns types idxs keyTypes)
    (haggs : ∀ f ∈ aggs, f.Declared types) (hn : 0 < n) {calls : List (RecordBatch × ℕ)}
    (hcalls : ValidCalls types n calls) (hargs : ∀ f ∈ aggs, f.ArgumentsFit (sunkRows calls))
    (hbound : numKeys (keyOf idxs) (sunkRows calls) < 2 ^ 32) :
    (create idxs keyTypes aggs n).AddsFit P ord calls ↔ ∀ f ∈ aggs, ∀ width ∈ f.kind.sumWidth,
      ∀ k, PartialSumsFit width (f.groupIntegers (keyOf idxs) k calls n) := by
  have hsinks := sinksFit_iff (P := P) hkeys haggs hcalls hargs hbound
  obtain ⟨op, kst, hop, hholds⟩ := sinkAll_holds (P := P) hkeys haggs hcalls hbound
  have hsums : ∀ (f : AggregationFunction) (width : ℕ) (k : Row),
      PrefixSumsFit width ((f.groupIntegers (keyOf idxs) k calls n).map List.sum) ↔
        ∀ d ≤ n, InWidth width
          (f.groupSum (keyOf idxs) (∑ t ∈ Finset.range d, threadRows calls t) k) := by
    intro f width k
    rw [AggregationFunction.groupIntegers, List.map_map, prefixSumsFit_map_range]
    simp only [AggregationFunction.groupSum_sum]
    have hthread : ∀ t, f.groupSum (keyOf idxs) (threadRows calls t) k =
        (List.sum ∘ fun t => f.integers ((threadRowList calls t).filter
          fun r => keyOf idxs r = k)) t := fun t => AggregationFunction.groupSum_coe _ k
    simp only [hthread]
  have hmerge : (∀ tid < n, ∀ f ∈ aggs, ∀ width ∈ f.kind.sumWidth,
      f.GroupSumsFit width (keyOf idxs) (threadRowList calls tid)) →
      (op.FinalizeFits P ord ↔ ∀ f ∈ aggs, ∀ width ∈ f.kind.sumWidth, ∀ k,
        PrefixSumsFit width ((f.groupIntegers (keyOf idxs) k calls n).map List.sum)) := by
    intro hfits
    rw [finalizeFits_iff ord hkeys haggs hn
      (by rwa [sum_threadRows fun c hc => (hcalls c hc).2.2]) hholds
      fun tid htid k f hf width hwidth => (hfits tid htid f hf width hwidth).sum k]
    simp only [hsums]
    exact ⟨fun h f hf width hwidth k d hd => h d hd k f hf width hwidth,
      fun h d hd k f hf width hwidth => h f hf width hwidth k d hd⟩
  constructor
  · rintro ⟨hmeets, hfinal⟩ f hf width hwidth k
    have hfits := hsinks.mp hmeets
    refine ⟨?_, (hmerge hfits).mp (hfinal op hop) f hf width hwidth k⟩
    intro ns hns
    obtain ⟨tid, htid, rfl⟩ := List.mem_map.mp hns
    exact hfits tid (List.mem_range.mp htid) f hf width hwidth k
  · intro hall
    have hfits : ∀ tid < n, ∀ f ∈ aggs, ∀ width ∈ f.kind.sumWidth,
        f.GroupSumsFit width (keyOf idxs) (threadRowList calls tid) := by
      intro tid htid f hf width hwidth k
      exact (hall f hf width hwidth k).1 _ (List.mem_map_of_mem (List.mem_range.mpr htid))
    refine ⟨hsinks.mpr hfits, ?_⟩
    intro op' hop'
    obtain rfl := Option.some.inj (hop.symm.trans hop')
    exact (hmerge hfits).mpr fun f hf width hwidth k => (hall f hf width hwidth k).2

/-- No addition leaves its state if the states have room for the rows of each group. -/
theorem addsFit_of_hasRoom (ord : IterationOrder) (hkeys : KeyColumns types idxs keyTypes)
    (haggs : ∀ f ∈ aggs, f.Declared types) (hn : 0 < n) {calls : List (RecordBatch × ℕ)}
    (hcalls : ValidCalls types n calls)
    (hbound : numKeys (keyOf idxs) (sunkRows calls) < 2 ^ 32)
    (hroom : ∀ f ∈ aggs, ∀ k, f.HasRoom (group (keyOf idxs) (sunkRows calls) k)) :
    (create idxs keyTypes aggs n).AddsFit P ord calls := by
  have hargs : ∀ f ∈ aggs, f.ArgumentsFit (sunkRows calls) := by
    intro f hf width hwidth r hr
    have hgroup : f.HasRoom ((sunkRows calls).filter fun r' => keyOf idxs r' = keyOf idxs r) :=
      hroom f hf (keyOf idxs r)
    exact hgroup.argumentsFit width hwidth r (List.mem_filter.mpr ⟨hr, by simp⟩)
  rw [addsFit_iff ord hkeys haggs hn hcalls hargs hbound]
  intro f hf width hwidth k
  apply (hroom f hf k).partialSumsFit hwidth
  have hperm := flatMap_threadRowList_perm fun c hc => (hcalls c hc).2.2
  rw [← List.filter_flatMap]
  exact Multiset.coe_eq_coe.mpr (hperm.filter _)

end GroupBySinkSourceOperator

end ColumnarEngine
