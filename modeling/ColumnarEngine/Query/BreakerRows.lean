import ColumnarEngine.Exec.GlobalAggregates
import ColumnarEngine.Exec.OrderByLayout

/-!
# The rows a breaker emits

What each breaker emits of the rows sunk, as rows and without a bound on the sums: the global
operator one row with the result of one pass for each function, GROUP BY such a row behind each of
the keys, ORDER BY the window of a sorted arrangement. The batch has no selection vector, and its
columns are those of the plan, unless ORDER BY has kept no row.
-/

namespace ColumnarEngine

open Found

/-- A batch without selection vector that has the rows, in columns of the types. -/
structure RecordBatch.Carries (b : RecordBatch) (types : List ColumnType) (rows : List Row) :
    Prop where
  unfiltered : b.selectionVector = none
  wellFormed : b.WellFormed
  types_eq : b.types = types
  rows_eq : b.rows = rows

/-- A batch that holds rows of the right length carries them. -/
theorem RecordBatch.Holds.carries {b : RecordBatch} {types : List ColumnType} {rows : List Row}
    (h : b.Holds types rows) (hrows : ∀ r ∈ rows, r.length = types.length) :
    b.Carries types rows where
  unfiltered := h.1
  wellFormed := by
    refine ⟨rows.length, h.size_eq, ?_⟩
    rw [h.1]
    exact fun _ => h.2.1
  types_eq := h.types_eq
  rows_eq := h.rows_eq hrows

/-- Columns side by side hold the rows side by side. -/
theorem HoldRows.append {types types' : List ColumnType} {columns columns' : List Column}
    {α : Type*} {l : List α} {f g : α → Row} (h : HoldRows types columns (l.map f))
    (h' : HoldRows types' columns' (l.map g)) (hf : ∀ a ∈ l, (f a).length = types.length) :
    HoldRows (types ++ types') (columns ++ columns') (l.map fun a => f a ++ g a) := by
  unfold HoldRows at h h' ⊢
  rw [List.map_append, h, h']
  apply List.ext_getElem (by simp)
  intro j hj _
  have hlength : (tableOf types (l.map f)).length = types.length := length_tableOf types _
  rw [getElem_tableOf, List.getElem_append]
  split_ifs with hlt
  · rw [getElem_tableOf, List.map_map, List.map_map]
    rw [hlength] at hlt
    refine Prod.ext ?_ (List.map_congr_left fun a ha => ?_)
    · exact (List.getElem_append_left hlt).symm
    · show (f a).getD j default = (f a ++ g a).getD j default
      rw [List.getD_append _ _ _ _ (hf a ha ▸ hlt)]
  · rw [getElem_tableOf, List.map_map, List.map_map]
    rw [hlength] at hlt
    refine Prod.ext ?_ (List.map_congr_left fun a ha => ?_)
    · simp only [List.get_eq_getElem, hlength]
      exact (List.getElem_append_right (not_lt.mp hlt)).symm
    · show (g a).getD (j - _) default = (f a ++ g a).getD j default
      rw [hlength, List.getD_append_right _ _ _ _ (hf a ha ▸ not_lt.mp hlt), hf a ha]

/-! ## Aggregates -/

namespace AggregationFunction

variable {P : Platform} {types : List ColumnType} {f : AggregationFunction}
  {fs : List AggregationFunction} {rows rows' : List Row}

/-- The result of one pass over the rows, as the column of the result stores it. -/
def valueOf (P : Platform) (f : AggregationFunction) (rows : List Row) : Value :=
  Value.conv f.columnType (f.kind.result P (f.onePass P rows))

theorem onePassColumn_content : (f.onePassColumn P rows).content =
    (f.columnType, [f.valueOf P rows]) := by
  simp [onePassColumn, valueOf, Column.content]

/-- Any state of the rows has the result of one pass. -/
theorem result_eq {s : f.kind.State} (hf : f.Declared types) (hne : rows ≠ [])
    (hrows : ∀ r ∈ rows, List.Forall₂ Value.HasType r types)
    (hs : f.kind.Represents s ((rows : Multiset Row).map f.argument)) :
    f.kind.result P s = f.kind.result P (f.onePass P rows) := by
  have hmap : (rows : Multiset Row).map f.argument ≠ 0 := by
    rwa [Ne, Multiset.map_eq_zero, Multiset.coe_eq_zero]
  exact AggregateKind.result_unique hmap hs (onePass_represents (P := P) hf hrows)

/-- Columns with the aggregates of lists of rows hold them as rows. -/
theorem holdRows_of_forall₂ {groups : List (List Row)} {columns : List Column}
    (h : List.Forall₂ (fun f c => Column.content c =
      (f.columnType, groups.map (f.valueOf P))) fs columns) :
    HoldRows (fs.map columnType) columns
      (groups.map fun rows => fs.map fun f => f.valueOf P rows) := by
  obtain ⟨hlength, hget⟩ := List.forall₂_iff_get.mp h
  unfold HoldRows
  apply List.ext_getElem (by simp [hlength])
  intro j hj hj'
  have hjf : j < fs.length := by simpa [hlength] using hj
  rw [List.getElem_map, getElem_tableOf, List.map_map]
  have hj := hget j hjf (by simpa using hj)
  simp only [List.get_eq_getElem] at hj
  rw [hj]
  simp [Function.comp_def, hjf]

end AggregationFunction

/-- **The global operator** emits the row of the results of one pass over all rows. -/
theorem AggregationSinkSourceOperator.result_row {P : Platform} {types : List ColumnType}
    {aggs : List AggregationFunction} {n : ℕ} (hn : 0 < n) (haggs : ∀ f ∈ aggs, f.Declared types)
    {calls : List (RecordBatch × ℕ)} (hcalls : ValidCalls types n calls) :
    ∃ op op' b, (create P aggs n).sinkAll P calls = some op ∧ op.finalize P = some op' ∧
      op'.getData.1 = some b ∧ b.Carries (aggs.map AggregationFunction.columnType)
        [aggs.map fun f => f.valueOf P (sunkRows calls)] := by
  obtain ⟨op, op', hop, hfinal, hdata⟩ := result_onePass (P := P) hn haggs hcalls
  refine ⟨op, op', _, hop, hfinal, hdata _ (.refl _), RecordBatch.Holds.carries ?_ (by simp)⟩
  refine ⟨rfl, rfl, ?_⟩
  have hcontent : List.Forall₂ (fun f c => Column.content c =
      (f.columnType, [sunkRows calls].map (f.valueOf P))) aggs
      (aggs.map fun f => f.onePassColumn P (sunkRows calls)) := by
    rw [List.forall₂_map_right_iff, List.forall₂_same]
    exact fun f _ => AggregationFunction.onePassColumn_content
  exact AggregationFunction.holdRows_of_forall₂ hcontent

/-! ## Groups -/

/-- The row of a group: the key, then the aggregates of the rows that have it. -/
def groupRow (P : Platform) (idxs : List ℕ) (aggs : List AggregationFunction) (rows : List Row)
    (k : Row) : Row :=
  k ++ aggs.map fun f => f.valueOf P (rows.filter fun r => keyOf idxs r = k)

/-- `Finalize` of a grouped function writes the result of one pass over each group. -/
theorem GroupedAggregationFunction.finalize_groups {P : Platform} {types : List ColumnType}
    {f : GroupedAggregationFunction} (hf : f.Declared types) {key : Row → Row} {ks : List Row}
    {rows : List Row} (hrows : ∀ r ∈ rows, List.Forall₂ Value.HasType r types)
    (hks : Covers key ks rows) (h : f.Holds key 0 ks rows) :
    ∃ c, f.finalize P = some c ∧ c.content = (f.columnType,
      (ks.map fun k => rows.filter fun r => key r = k).map
        (f.toAggregationFunction.valueOf P)) := by
  obtain ⟨states, hstates, htracks⟩ := h
  obtain ⟨hlength, hget⟩ := List.forall₂_iff_get.mp htracks
  refine ⟨_, finalize_eq_some hf.output hstates, ?_⟩
  have hdata : (states.map (f.kind.result P)).map (Value.conv f.columnType) =
      (ks.map fun k => rows.filter fun r => key r = k).map (f.toAggregationFunction.valueOf P) := by
    apply List.ext_getElem (by simp [hlength])
    intro i hi _
    have hi' : i < ks.length := by simpa [hlength] using hi
    have hstate := hget i hi' (hlength ▸ hi')
    obtain ⟨r, hr, hkey⟩ := (hks.mem_iff ks[i]).mp (List.getElem_mem hi')
    have hgroup : group key (rows : Multiset Row) ks[i] =
        (rows.filter fun r => key r = ks[i] : List Row) := Multiset.filter_coe _ _
    simp only [List.get_eq_getElem, hgroup] at hstate
    simp only [List.getElem_map, AggregationFunction.valueOf]
    rw [AggregationFunction.result_eq hf (List.ne_nil_of_mem (List.mem_filter.mpr ⟨hr, by simpa⟩))
      (fun r hr => hrows r (List.mem_filter.mp hr).1) hstate]
  simp [Column.content, ← hdata]

/-- **GROUP BY** emits one row for each key of the rows sunk, in some order of the keys. -/
theorem GroupBySinkSourceOperator.result_groups {P : Platform} (ord : IterationOrder)
    {types keyTypes : List ColumnType} {idxs : List ℕ} {aggs : List AggregationFunction} {n : ℕ}
    (hn : 0 < n) (hkeys : KeyColumns types idxs keyTypes) (haggs : ∀ f ∈ aggs, f.Declared types)
    {calls : List (RecordBatch × ℕ)} (hcalls : ValidCalls types n calls)
    (hbound : numKeys (keyOf idxs) (sunkRows calls) < 2 ^ 32) :
    ∃ op op' b ks, (create idxs keyTypes aggs n).sinkAll P calls = some op ∧
      op.finalize P ord = some op' ∧ op'.getData.1 = some b ∧
      Covers (keyOf idxs) ks (sunkRows calls) ∧
      b.Carries (keyTypes ++ aggs.map AggregationFunction.columnType)
        (ks.map (groupRow P idxs aggs (sunkRows calls))) := by
  obtain ⟨op, kst, hop, hholds⟩ := sinkAll_holds (P := P) hkeys haggs hcalls hbound
  have hsum := sum_threadRows fun c hc => (hcalls c hc).2.2
  obtain ⟨glob, m, ks, hglob, hm, hmerge⟩ := mergeThreads_holds (P := P) ord haggs hkeys hn
    (by rwa [hsum]) hholds
  rw [hsum] at hmerge
  obtain ⟨cols, hcols, hall⟩ := exists_mapM (l := m.aggFuncs) (f := fun f => f.finalize P)
    (Q := fun f c => c.content = (f.columnType,
      (ks.map fun k => (sunkRows calls).filter fun r => keyOf idxs r = k).map
        (f.toAggregationFunction.valueOf P)))
    (by
      intro f hf
      have hdecl : f.Declared types := haggs _ (hmerge.specs ▸ List.mem_map_of_mem hf)
      exact GroupedAggregationFunction.finalize_groups hdecl hcalls.rows_typed hmerge.covers
        (hmerge.global f hf))
  have hlength : ∀ k ∈ ks, k.length = keyTypes.length := by
    intro k hk
    obtain ⟨r, -, hr⟩ := (hmerge.covers.mem_iff k).mp hk
    rw [← hr, length_keyOf, hkeys.length_eq]
  have haggRows : HoldRows (aggs.map AggregationFunction.columnType) cols
      (ks.map fun k => aggs.map fun f =>
        f.valueOf P ((sunkRows calls).filter fun r => keyOf idxs r = k)) := by
    have hcontent : List.Forall₂ (fun f c => Column.content c = (f.columnType,
        (ks.map fun k => (sunkRows calls).filter fun r => keyOf idxs r = k).map (f.valueOf P)))
        aggs cols := by
      rw [← hmerge.specs, List.forall₂_map_left_iff]
      exact hall
    have hhold := AggregationFunction.holdRows_of_forall₂ hcontent
    rwa [List.map_map] at hhold
  have hkeyRows := HoldRows.of_builders hmerge.builders
  rw [← List.map_id ks] at hkeyRows
  refine ⟨op, _, _, ks, hop, finalize_eq_some ord hglob hm hcols,
    by simp [getData, hholds.silent]; rfl, hmerge.covers, RecordBatch.Holds.carries ?_ ?_⟩
  · exact ⟨rfl, by simp [hmerge.num], hkeyRows.append haggRows hlength⟩
  · intro r hr
    obtain ⟨k, hk, rfl⟩ := List.mem_map.mp hr
    simp [groupRow, hlength k hk]

/-! ## Windows -/

/-- What a loop of `CopySelection` calls has done, if it was defined. -/
theorem columnsSized_of_copyColumns {is : List ℕ} {dests ds : List ColumnBuilder} {k : ℕ}
    {srcs : List Column} (h : copyColumns dests.length dests srcs (some is) = some ds)
    (hk : ∀ d ∈ dests, d.data.length = k) :
    ColumnsSized (dests.map ColumnBuilder.type) (k + is.length) (ds.map ColumnBuilder.finish) := by
  induction dests generalizing srcs ds with
  | nil =>
      obtain rfl := Option.some.inj h
      exact ⟨rfl, by simp⟩
  | cons d dests ih =>
      cases srcs with
      | nil => cases h
      | cons s srcs =>
          obtain ⟨d', hd', h⟩ := Option.bind_eq_some_iff.mp h
          obtain ⟨ds', hds', rfl⟩ := Option.map_eq_some_iff.mp h
          obtain ⟨htypes, hsizes⟩ := ih hds' fun d hd => hk d (.tail _ hd)
          unfold copySelection at hd'
          split_ifs at hd'
          obtain ⟨vs, hvs, rfl⟩ := Option.map_eq_some_iff.mp hd'
          refine ⟨by simp [htypes], ?_⟩
          intro c hc
          rcases List.mem_cons.mp hc with rfl | hc
          · have hlength : vs.length = is.length := by
              rw [Column.visit, gather_eq_some (lt_of_gather hvs)] at hvs
              rw [← Option.some.inj hvs, List.length_map]
            simp [Column.size, hk d List.mem_cons_self, hlength]
          · exact hsizes c hc

namespace OrderBySinkSourceOperator

variable {P : Platform} {A : SortAlgorithms ℕ}

/-- `Sink` calls leave the types of the columns. -/
theorem columnTypes_sinkAll {op op' : OrderBySinkSourceOperator} {calls : List (RecordBatch × ℕ)}
    (h : op.sinkAll P A calls = some op') : op'.columnTypes = op.columnTypes := by
  induction calls generalizing op with
  | nil => rw [← Option.some.inj h]
  | cons c calls ih =>
      rw [sinkAll, List.foldlM_cons] at h
      obtain ⟨op₁, hsink, h⟩ := Option.bind_eq_some_iff.mp h
      obtain ⟨loc, -, hsink⟩ := Option.bind_eq_some_iff.mp hsink
      obtain ⟨loc', -, rfl⟩ := Option.map_eq_some_iff.mp hsink
      have hrest := ih h
      exact hrest

/-- The batch of `Finalize` has no selection vector; it has the columns or nothing. -/
theorem finalize_shape {op op' : OrderBySinkSourceOperator} (h : op.finalize P A = some op') :
    ∃ b, op'.resultBatch = some b ∧ b.selectionVector = none ∧
      (b = ⟨0, none, []⟩ ∨ b.HasLayout op.columnTypes) := by
  obtain ⟨acc, -, h⟩ := Option.bind_eq_some_iff.mp h
  split_ifs at h
  · obtain rfl := Option.some.inj h
    exact ⟨_, rfl, rfl, .inl rfl⟩
  · obtain ⟨info, -, h⟩ := Option.bind_eq_some_iff.mp h
    obtain ⟨builders, hbuilders, rfl⟩ := Option.map_eq_some_iff.mp h
    refine ⟨_, rfl, rfl, .inr ?_⟩
    have hlength : op.columnTypes.length = (op.columnTypes.map makeColumnBuilder).length :=
      (List.length_map _).symm
    rw [rebuild, hlength] at hbuilders
    obtain ⟨htypes, hsizes⟩ := columnsSized_of_copyColumns (k := 0) hbuilders (by simp)
    rw [zero_add] at hsizes
    refine ⟨htypes.trans ?_, hsizes⟩
    rw [List.map_map]
    exact List.map_id _

/-- **ORDER BY** emits the window of a sorted arrangement of the rows sunk; without a row left it
may be a batch without columns. -/
theorem result_window {types : List ColumnType} (hne : types ≠ []) {sortColumns : List (ℕ × Bool)}
    (hkeys : PlainSortKeys types sortColumns) {limit offset : Option ℕ}
    (hfits : FitsIndex limit offset) {n : ℕ} {calls : List (RecordBatch × ℕ)}
    (hcalls : ValidCalls types n calls) (hrows : (sunkRows calls).length < 2 ^ 32) :
    ∃ op op' b L, (create sortColumns types limit offset n).sinkAll P A calls = some op ∧
      op.finalize P A = some op' ∧ op'.getData.1 = some b ∧ L.Perm (sunkRows calls) ∧
      L.Pairwise (NotAfter (lexBefore sortColumns)) ∧
      (b.Carries types (window limit offset L) ∨
        b = ⟨0, none, []⟩ ∧ window limit offset L = []) := by
  obtain ⟨b, L, ⟨op, op', hop, hfinal, hdata⟩, hperm, hsorted, hbrows⟩ :=
    window_of_columns (P := P) (A := A) hne hkeys hfits hcalls hrows
  obtain ⟨b', hresult, hunfiltered, hshape⟩ := finalize_shape hfinal
  obtain rfl : b' = b := by
    unfold getData at hdata
    split_ifs at hdata
    exact Option.some.inj (hresult.symm.trans hdata)
  refine ⟨op, op', b', L, hop, hfinal, hdata, hperm, hsorted, ?_⟩
  rcases hshape with rfl | ⟨htypes, hsizes⟩
  · exact .inr ⟨rfl, hbrows.symm⟩
  · refine .inl ⟨hunfiltered, ⟨b'.numRows, hsizes, ?_⟩, ?_, hbrows⟩
    · rw [hunfiltered]
      exact fun _ => rfl
    · rw [htypes, columnTypes_sinkAll hop]
      rfl

end OrderBySinkSourceOperator

end ColumnarEngine
