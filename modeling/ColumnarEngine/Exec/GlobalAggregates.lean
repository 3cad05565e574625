import ColumnarEngine.Exec.AggregationOperator
import ColumnarEngine.Exec.GroupByCorrect

/-!
# Global aggregates, one pass and one group

The states of an aggregation function stand for multisets, and the result is a function of the
multiset (`result_unique`). So the global operator, a single pass over all rows on one state and a
grouping with one key give the same columns, however the rows are spread over threads
(`globalAggregates_agree`).
-/

namespace ColumnarEngine

open Found

/-! ## One pass -/

namespace AggregationFunction

variable (P : Platform)

/-- The state after all rows, one after the other. -/
def onePass (f : AggregationFunction) (rows : List Row) : f.kind.State :=
  (rows.map f.argument).foldl (f.kind.accumulator P).step (f.kind.accumulator P).init

/-- The result of one pass in a builder of the declared type. -/
def onePassColumn (f : AggregationFunction) (rows : List Row) : Column :=
  ((makeColumnBuilder f.columnType).addValues [f.kind.result P (f.onePass P rows)]).finish

variable {P}

/-- One pass stands for all rows. -/
theorem onePass_represents {types : List ColumnType} {f : AggregationFunction}
    (hf : f.Declared types) {rows : List Row}
    (hrows : ∀ r ∈ rows, List.Forall₂ Value.HasType r types) :
    f.kind.Represents (f.onePass P rows) ((rows : Multiset Row).map f.argument) := by
  have hsum := AggregateKind.summarizes (P := P) hf.exact
  have haccepts : ∀ v ∈ rows.map f.argument, f.kind.Accepts v := by
    intro v hv
    obtain ⟨r, hr, rfl⟩ := List.mem_map.mp hv
    exact hf.accepts (hrows r hr)
  have hfold := hsum.foldl_step hsum.init haccepts
  rwa [zero_add, ← Multiset.map_coe] at hfold

end AggregationFunction

/-! ## The result is a function of the multiset -/

namespace AggregateKind

variable {P : Platform}

/-- There is one extremum. -/
theorem extremum_unique {op : Operation} (hop : op ≠ .sum) {m : Multiset Value} {a b : Value}
    (ha : op.Extremum m a) (hb : op.Extremum m b) : a = b := by
  have hab := ha.2 b hb.1
  have hba := hb.2 a ha.1
  cases op with
  | sum => exact absurd rfl hop
  | max => exact le_antisymm (α := Value) hba hab
  | min => exact le_antisymm (α := Value) hab hba

/-- States of the same values have the same result. -/
theorem result_unique {k : AggregateKind} {s s' : k.State} {m : Multiset Value} (hm : m ≠ 0)
    (hs : k.Represents s m) (hs' : k.Represents s' m) : k.result P s = k.result P s' := by
  match k with
  | typed _ _ .sum => exact hs.2.trans hs'.2.symm
  | typed _ _ .max => exact extremum_unique (by simp) (hs.2.2 hm) (hs'.2.2 hm)
  | typed _ _ .min => exact extremum_unique (by simp) (hs.2.2 hm) (hs'.2.2 hm)
  | count _ =>
      have hs : (s : ℤ) = wrap 8 (m.card : ℤ) := hs
      have hs' : (s' : ℤ) = wrap 8 (m.card : ℤ) := hs'
      rw [result, result, hs, hs']
  | avg _ _ _ => rw [result, result, hs.1, hs'.1, hs.2, hs'.2]
  | distinctCount _ _ =>
      have hperm : List.Perm s s' := (List.perm_ext_iff_of_nodup hs.1 hs'.1).mpr fun v =>
        (hs.2 v).trans (hs'.2 v).symm
      rw [result, result, hperm.length_eq]

/-- Merging two states without values gives one. -/
theorem merge_init {k : AggregateKind} (hk : k.Exact) :
    (k.accumulator P).merge (k.accumulator P).init (k.accumulator P).init =
      (k.accumulator P).init := by
  cases k with
  | typed _ _ _ => rfl
  | count _ => exact wrap_eq_self (inWidth_zero 8)
  | avg _ _ state =>
      simp [accumulator, Value.zero, hk.2.2, Value.plus_int P hk.2.1 hk.2.2,
        wrap_eq_self (inWidth_zero _)]
  | distinctCount _ _ => rfl

end AggregateKind

namespace AggregationFunction

variable {P : Platform} {f : AggregationFunction}

/-- A batch without rows leaves a state without values. -/
theorem absorb_init {b : RecordBatch} (hb : b.WellFormed) (hf : f.Declared b.types)
    (hrows : b.rows = []) :
    f.kind.absorb P f.columnIndex b (f.kind.accumulator P).init =
      some (f.kind.accumulator P).init := by
  have hinputs := hf.inputs_eq hb
  rw [hrows, List.map_nil] at hinputs
  have hnum : b.numRows = 0 := by rw [← hb.length_rows, hrows, List.length_nil]
  obtain ⟨kind, col, t⟩ := f
  cases kind with
  | count out =>
      rw [AggregateKind.absorb, hnum]
      exact congrArg some (wrap_eq_self (inWidth_zero 8))
  | typed i o op => rw [AggregateKind.absorb, hinputs]; rfl
  | avg i o st => rw [AggregateKind.absorb, hinputs]; rfl
  | distinctCount i o => rw [AggregateKind.absorb, hinputs]; rfl

end AggregationFunction

namespace GlobalAggregationFunction

variable {P : Platform} {types : List ColumnType} {n : ℕ}

/-- Without values the merge over the threads has none. -/
theorem total_create {f : AggregationFunction} (hf : f.kind.Exact) (hn : 0 < n) :
    (create P f n).total P = some (f.kind.accumulator P).init := by
  have hfold : ∀ m, (List.replicate m (f.kind.accumulator P).init).foldl
      (f.kind.accumulator P).merge (f.kind.accumulator P).init = (f.kind.accumulator P).init := by
    intro m
    induction m with
    | zero => rfl
    | succ m ih => rw [List.replicate_succ, List.foldl_cons, AggregateKind.merge_init hf, ih]
  obtain ⟨m, rfl⟩ := Nat.exists_eq_succ_of_ne_zero hn.ne'
  have hstates : (create P f (m + 1)).threadStates =
      (f.kind.accumulator P).init :: List.replicate m (f.kind.accumulator P).init := rfl
  unfold total
  rw [hstates]
  dsimp only
  split_ifs with hdistinct
  · exact congrArg some (hfold m)
  · exact congrArg some (hfold (m + 1))

/-- A batch without rows leaves a fresh function as it is. -/
theorem update_create {f : AggregationFunction} {b : RecordBatch} (hb : b.WellFormed)
    (hf : f.Declared b.types) (hrows : b.rows = []) {t : ℕ} (ht : t < n) :
    (create P f n).update P b t = some (create P f n) := by
  have hset : (List.replicate n (f.kind.accumulator P).init).set t (f.kind.accumulator P).init =
      List.replicate n (f.kind.accumulator P).init := List.set_replicate_self
  refine (update_eq_some (f := create P f n) (List.getElem?_replicate_of_lt ht)
    (AggregationFunction.absorb_init hb hf hrows)).trans (congrArg some ?_)
  exact congrArg (GlobalAggregationFunction.mk f) hset

/-- `Finalize` of a global function with the declared output class. -/
theorem finalize_eq_some {f : GlobalAggregationFunction} (hout : f.columnType = f.kind.output)
    {s : f.kind.State} (h : f.total P = some s) :
    f.finalize P =
      some ((makeColumnBuilder f.columnType).addValues [f.kind.result P s]).finish := by
  simp [finalize, h, AggregationFunction.finalize, hout]

end GlobalAggregationFunction

namespace AggregationSinkSourceOperator

variable {P : Platform} {types : List ColumnType} {aggs : List AggregationFunction} {n : ℕ}

/-- Batches without rows leave a fresh operator as it is. -/
theorem sinkAll_create (haggs : ∀ f ∈ aggs, f.Declared types) {calls : List (RecordBatch × ℕ)}
    (hcalls : ValidCalls types n calls) (hrows : sunkRows calls = []) :
    (create P aggs n).sinkAll P calls = some (create P aggs n) := by
  induction calls with
  | nil => rfl
  | cons c calls ih =>
      obtain ⟨hb, hbt, ht⟩ := hcalls c List.mem_cons_self
      rw [sunkRows, List.flatMap_cons, List.append_eq_nil_iff] at hrows
      have hsame : (create P aggs n).aggregationFunctions.mapM (fun f : GlobalAggregationFunction =>
          f.update P c.1 c.2) = some ((create P aggs n).aggregationFunctions.map id) := by
        apply mapM_eq_map
        intro f hf
        obtain ⟨a, ha, rfl⟩ := List.mem_map.mp hf
        exact GlobalAggregationFunction.update_create hb (hbt ▸ haggs a ha) hrows.1 ht
      have hsink : (create P aggs n).sink P c.1 c.2 = some (create P aggs n) := by
        rw [sink, hsame, List.map_id]
        rfl
      rw [sinkAll, List.foldlM_cons, hsink]
      exact ih (fun c' hc' => hcalls c' (List.mem_cons_of_mem c hc')) hrows.2

/-- **The global operator computes one pass**: for every sequence of `Sink` calls on any threads the
result is that of all rows in any order. -/
theorem result_onePass (hn : 0 < n) (haggs : ∀ f ∈ aggs, f.Declared types)
    {calls : List (RecordBatch × ℕ)} (hcalls : ValidCalls types n calls) :
    ∃ op op', (create P aggs n).sinkAll P calls = some op ∧ op.finalize P = some op' ∧
      ∀ rows, rows.Perm (sunkRows calls) →
        (op'.getData).1 = some ⟨1, none, aggs.map fun f => f.onePassColumn P rows⟩ := by
  obtain ⟨op, hop, hholds⟩ := sinkAll_holds (P := P) haggs hcalls
  have hsum := sum_threadRows fun c hc => (hcalls c hc).2.2
  have htyped := hcalls.rows_typed
  have hfinal : ∀ rows, rows.Perm (sunkRows calls) →
      op.aggregationFunctions.mapM (fun f : GlobalAggregationFunction => f.finalize P) =
        some (op.aggregationFunctions.map fun f =>
          f.toAggregationFunction.onePassColumn P rows) := by
    intro rows hperm
    apply mapM_eq_map
    intro f hf
    have hdecl : f.Declared types := haggs _ (hholds.specs ▸ List.mem_map_of_mem hf)
    by_cases hnil : sunkRows calls = []
    · -- No rows: every state is the initial one.
      obtain rfl := Option.some.inj (hop.symm.trans (sinkAll_create haggs hcalls hnil))
      obtain ⟨a, ha, rfl⟩ := List.mem_map.mp hf
      obtain rfl : rows = [] := List.perm_nil.mp (hnil ▸ hperm)
      exact GlobalAggregationFunction.finalize_eq_some hdecl.output
        (GlobalAggregationFunction.total_create hdecl.exact hn)
    · obtain ⟨s, hs, hrep⟩ := GlobalAggregationFunction.total_represents (P := P) hn hdecl
        (hholds.funcs f hf)
      have hone := AggregationFunction.onePass_represents (P := P) hdecl fun r hr =>
        htyped r (hperm.subset hr)
      rw [hsum] at hrep
      rw [Multiset.coe_eq_coe.mpr hperm] at hone
      have hne : (sunkRows calls : Multiset Row).map f.argument ≠ 0 := by
        rwa [Ne, Multiset.map_eq_zero, Multiset.coe_eq_zero]
      rw [GlobalAggregationFunction.finalize_eq_some hdecl.output hs,
        AggregateKind.result_unique hne hrep hone]
      rfl
  obtain ⟨cols, hcols⟩ : ∃ cols, op.aggregationFunctions.mapM
      (fun f : GlobalAggregationFunction => f.finalize P) = some cols := ⟨_, hfinal _ (.refl _)⟩
  refine ⟨op, { op with resultBatch := some ⟨1, none, cols⟩ }, hop, by rw [finalize, hcols]; rfl,
    fun rows hperm => ?_⟩
  have hcols' := Option.some.inj (hcols.symm.trans (hfinal rows hperm))
  rw [getData, hholds.silent, if_neg Bool.false_ne_true, hcols', ← hholds.specs, List.map_map]
  rfl

end AggregationSinkSourceOperator

/-! ## One group -/

namespace GroupBySinkSourceOperator

variable {P : Platform} {types keyTypes : List ColumnType} {idxs : List ℕ}
  {aggs : List AggregationFunction} {n : ℕ}

/-- **A grouping with one key computes one pass**: if all rows have the key tuple `k`, the result is
the row of `k` and of the aggregates of all rows. -/
theorem result_onePass (ord : IterationOrder) (hn : 0 < n) (hkeys : KeyColumns types idxs keyTypes)
    (haggs : ∀ f ∈ aggs, f.Declared types) {calls : List (RecordBatch × ℕ)}
    (hcalls : ValidCalls types n calls) (hne : sunkRows calls ≠ []) {k : Row}
    (hk : ∀ r ∈ sunkRows calls, keyOf idxs r = k) :
    ∃ op op' keyColumns, (create idxs keyTypes aggs n).sinkAll P calls = some op ∧
      op.finalize P ord = some op' ∧ (keyColumns.map fun c => c.data.getD 0 default) = k ∧
      op'.getData.1 = some ⟨1, none,
        keyColumns ++ aggs.map fun f => f.onePassColumn P (sunkRows calls)⟩ := by
  have hne' : (sunkRows calls : Multiset Row) ≠ 0 := by rwa [Ne, Multiset.coe_eq_zero]
  have hk' : ∀ r ∈ (sunkRows calls : Multiset Row), keyOf idxs r = k := hk
  have hbound : numKeys (keyOf idxs) (sunkRows calls) < 2 ^ 32 := by
    have hone : numKeys (keyOf idxs) (sunkRows calls) ≤ 1 := by
      apply Finset.card_le_one.mpr
      intro a ha b hb
      obtain ⟨r, hr, rfl⟩ := Multiset.mem_map.mp (Multiset.mem_toFinset.mp ha)
      obtain ⟨r', hr', rfl⟩ := Multiset.mem_map.mp (Multiset.mem_toFinset.mp hb)
      rw [hk' r hr, hk' r' hr']
    omega
  have htyped := hcalls.rows_typed
  have hsum := sum_threadRows fun c hc => (hcalls c hc).2.2
  obtain ⟨op, kst, hop, hholds⟩ := sinkAll_holds (P := P) hkeys haggs hcalls hbound
  obtain ⟨glob, m, ks, hglob, hm, hmerge⟩ := mergeThreads_holds (P := P) ord haggs hkeys hn
    (by rwa [hsum]) hholds
  rw [hsum] at hmerge
  obtain rfl := hmerge.covers.eq_singleton hne' hk'
  have hgroup : group (keyOf idxs) (sunkRows calls : Multiset Row) k = sunkRows calls :=
    Multiset.filter_eq_self.mpr hk'
  have hcols : m.aggFuncs.mapM (fun f => f.finalize P) = some (m.aggFuncs.map fun f =>
      f.toAggregationFunction.onePassColumn P (sunkRows calls)) := by
    apply mapM_eq_map
    intro f hf
    have hdecl : f.Declared types := haggs _ (hmerge.specs ▸ List.mem_map_of_mem hf)
    obtain ⟨states, hstates, htracks⟩ := hmerge.global f hf
    obtain ⟨s, hrep, rfl⟩ : ∃ s, f.kind.Represents s
        ((group (keyOf idxs) (sunkRows calls : Multiset Row) k).map f.argument) ∧ states = [s] := by
      obtain ⟨s, rest, hs, hrest, rfl⟩ := List.forall₂_cons_left_iff.mp htracks
      exact ⟨s, hs, by rw [List.forall₂_nil_left_iff.mp hrest]⟩
    rw [hgroup] at hrep
    have hmap : (sunkRows calls : Multiset Row).map f.argument ≠ 0 := by
      rwa [Ne, Multiset.map_eq_zero]
    have hone := AggregationFunction.onePass_represents (P := P) hdecl htyped
    rw [GroupedAggregationFunction.finalize_eq_some hdecl.output hstates, List.map_singleton,
      AggregateKind.result_unique hmap hrep hone]
    rfl
  refine ⟨op, _, m.glob.keyBuilders.map ColumnBuilder.finish, hop,
    finalize_eq_some ord hglob hm hcols, ?_, ?_⟩
  · apply (HoldRows.of_builders hmerge.builders).row_eq (i := 0) (by simp)
    obtain ⟨r, -, hr⟩ := (hmerge.covers.mem_iff k).mp List.mem_cons_self
    rw [List.getElem_singleton, ← hr, length_keyOf, hkeys.length_eq]
  · rw [getData, if_neg (by simp [hholds.silent])]
    dsimp only
    rw [hmerge.num, ← hmerge.specs, List.map_map]
    rfl

end GroupBySinkSourceOperator

/-! ## The aggregates -/

/-- The value in the column of one pass is the aggregate of the rows. -/
theorem AggregationFunction.onePassColumn_spec {P : Platform} {types : List ColumnType}
    {f : AggregationFunction} (hf : f.Declared types) (havg : f.kind.isAvg = false)
    {rows : List Row} (hne : rows ≠ []) (hrows : ∀ r ∈ rows, List.Forall₂ Value.HasType r types)
    (hfits : f.kind.Fits ((rows : Multiset Row).map f.argument)) :
    ∃ v, (f.onePassColumn P rows).data = [v] ∧
      f.kind.Spec P ((rows : Multiset Row).map f.argument) v := by
  have hrep := onePass_represents (P := P) hf hrows
  have hmap : (rows : Multiset Row).map f.argument ≠ 0 := by
    rwa [Ne, Multiset.map_eq_zero, Multiset.coe_eq_zero]
  have htype := AggregateKind.result_hasType (P := P) hf.exact havg hrep hfits
  have hdata : (f.onePassColumn P rows).data = [f.kind.result P (f.onePass P rows)] := by
    rw [onePassColumn, hf.output]
    simp [Value.conv_eq_self htype]
  exact ⟨_, hdata, AggregateKind.result_spec hrep hmap hfits⟩

/-- The global operator, one pass over the rows and a grouping with one key agree on the calls. -/
structure AggregatesAgree (P : Platform) (ord : IterationOrder) (types : List ColumnType)
    (aggs : List AggregationFunction) (n : ℕ) (calls : List (RecordBatch × ℕ)) : Prop where
  /-- The global result is that of one pass over the selected rows in any order. -/
  global : ∃ op op', (AggregationSinkSourceOperator.create P aggs n).sinkAll P calls = some op ∧
    op.finalize P = some op' ∧ ∀ rows, rows.Perm (sunkRows calls) →
      op'.getData.1 = some ⟨1, none, aggs.map fun f => f.onePassColumn P rows⟩
  /-- On at least one row it is the aggregate of the rows, if their exact sum fits. -/
  spec : ∀ f ∈ aggs, f.kind.isAvg = false → sunkRows calls ≠ [] →
    f.kind.Fits ((sunkRows calls : Multiset Row).map f.argument) →
      ∃ v, (f.onePassColumn P (sunkRows calls)).data = [v] ∧
        f.kind.Spec P ((sunkRows calls : Multiset Row).map f.argument) v
  /-- Grouped by columns in which all rows have the key tuple `k`, the result is one row of the same
  columns. -/
  grouped : ∀ idxs keyTypes k, KeyColumns types idxs keyTypes → sunkRows calls ≠ [] →
    (∀ r ∈ sunkRows calls, keyOf idxs r = k) →
      ∃ op op' keyColumns,
        (GroupBySinkSourceOperator.create idxs keyTypes aggs n).sinkAll P calls = some op ∧
        op.finalize P ord = some op' ∧ (keyColumns.map fun c => c.data.getD 0 default) = k ∧
        op'.getData.1 = some ⟨1, none,
          keyColumns ++ aggs.map fun f => f.onePassColumn P (sunkRows calls)⟩

/-- **Global aggregates do not depend on the threads and agree with GROUP BY**, for every sequence
of `Sink` calls on any threads. -/
theorem globalAggregates_agree (P : Platform) (ord : IterationOrder) {types : List ColumnType}
    {aggs : List AggregationFunction} {n : ℕ} (hn : 0 < n) (haggs : ∀ f ∈ aggs, f.Declared types)
    {calls : List (RecordBatch × ℕ)} (hcalls : ValidCalls types n calls) :
    AggregatesAgree P ord types aggs n calls where
  global := AggregationSinkSourceOperator.result_onePass hn haggs hcalls
  spec := fun f hf havg hne hfits =>
    AggregationFunction.onePassColumn_spec (haggs f hf) havg hne hcalls.rows_typed hfits
  grouped := fun _ _ _ hkeys hne hk =>
    GroupBySinkSourceOperator.result_onePass ord hn hkeys haggs hcalls hne hk

/-- Three threads, of which one sees no rows and one a filtered batch: count, sum, minimum and
distinct count of an `INT16` and a `STRING` column. -/
theorem globalAggregates_agree_three_threads :
    AggregatesAgree Platform.integral ⟨List.reverse, List.reverse_perm⟩ [.int16, .string]
      [⟨.count .int64, 0, .int64⟩, ⟨.typed .int16 .int32 .sum, 0, .int32⟩,
        ⟨.typed .string .string .min, 1, .string⟩, ⟨.distinctCount .string .int64, 1, .int64⟩] 3
      [(⟨2, none, [Column.ofValues .int16 [.int 7, .int (-8)],
          Column.ofValues .string [.str (ascii "b"), .str (ascii "b")]]⟩, 2),
        (⟨1, some [1], [Column.ofValues .int16 [.int 0, .int 9],
          Column.ofValues .string [.str (ascii "c"), .str (ascii "a")]]⟩, 0)] := by
  refine globalAggregates_agree _ _ (by decide) ?_ (by unfold ValidCalls; decide)
  intro f hf
  simp only [List.mem_cons, List.not_mem_nil, or_false] at hf
  rcases hf with rfl | rfl | rfl | rfl
  · exact ⟨⟨by decide, rfl⟩, rfl⟩
  · exact ⟨⟨by decide, rfl⟩, by decide, by decide⟩
  · exact ⟨⟨by decide, rfl⟩, by decide, rfl⟩
  · exact ⟨⟨by decide, rfl⟩, by decide, rfl⟩

end ColumnarEngine
