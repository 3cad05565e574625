import ColumnarEngine.Exec.AggregateExpressions
import ColumnarEngine.Exec.GroupSumOverflow

/-!
# The width of the accumulator of SUM and AVG

`SumResultTrait` widens `INT16` to `INT32`, `INT32` to `INT64` and `INT64` to `INT128`. The last two
leave room for `2 ^ 32` values; the first leaves room for `2 ^ 16`. `sum_exact_iff` says when no
addition of `SUM` or of `AVG`, global or grouped, leaves the state, which then holds the exact sum of
the rows.
-/

namespace ColumnarEngine

open Found

/-- The sum a state of `SUM` or `AVG` holds. -/
def AggregateKind.heldSum : (k : AggregateKind) → k.State → Value
  | .typed _ _ _, s => s.value
  | .avg _ _ _, s => s.sum
  | .count _, s => .int s
  | .distinctCount _ _, s => .int (List.length s)

/-- The kinds that add integers of type `t` in the width of `SumResultTrait`. -/
def AggregateKind.AddsUp (t : ColumnType) (k : AggregateKind) : Prop :=
  k = .typed t (sumResultTrait t).1 .sum ∨ k = .avg t .longdouble (sumResultTrait t).1

/-- The integer types below `INT128`. -/
def ColumnType.IsSummable (t : ColumnType) : Prop := t = .int16 ∨ t = .int32 ∨ t = .int64

/-! ## What the functions add -/

section adds

variable {t : ColumnType} {k : AggregateKind}

/-- The kind reads integers and adds in an integer type. -/
theorem AggregateKind.AddsUp.exact (ht : t.IsSummable) (hk : k.AddsUp t) :
    k.Exact ∧ k.input = some t := by
  rcases ht with rfl | rfl | rfl <;> rcases hk with rfl | rfl <;>
    exact ⟨⟨by decide, by decide⟩, rfl⟩

theorem AggregateKind.AddsUp.sumWidth_eq (hk : k.AddsUp t) :
    k.sumWidth = some (sumResultTrait t).1.elemSize := by
  rcases hk with rfl | rfl <;> rfl

/-- The state holds the exact sum modulo its width. -/
theorem AggregateKind.AddsUp.heldSum_eq (hk : k.AddsUp t) {s : k.State} {m : Multiset Value}
    (hs : k.Represents s m) :
    k.heldSum s = .int (wrap (sumResultTrait t).1.elemSize (exactSum m)) := by
  rcases hk with rfl | rfl
  · exact hs.2
  · exact hs.1

variable {types : List ColumnType} {f : AggregationFunction} {rs : Multiset Row}

/-- The integers of typed rows have the width of the column. -/
theorem inWidth_argument (ht : t.IsSummable) (hf : f.Declared types) (hadds : f.kind.AddsUp t)
    {r : Row} (hr : List.Forall₂ Value.HasType r types) :
    InWidth t.elemSize (f.argument r).toInt := by
  have htyped := hf.accepts hr t (hadds.exact ht).2
  cases hv : f.argument r with
  | int n =>
      rw [hv] at htyped
      exact htyped.2
  | str s =>
      rw [hv] at htyped
      rcases ht with rfl | rfl | rfl <;> simp [Value.HasType] at htyped

/-- They fit the state. -/
theorem argumentsFit_of_typed (ht : t.IsSummable) (hf : f.Declared types) (hadds : f.kind.AddsUp t)
    {rows : List Row} (hrows : ∀ r ∈ rows, List.Forall₂ Value.HasType r types) :
    f.ArgumentsFit rows := by
  intro width hwidth r hr
  obtain rfl := Option.some.inj (hadds.sumWidth_eq.symm.trans hwidth)
  apply (inWidth_argument ht hf hadds (hrows r hr)).mono
  rcases ht with rfl | rfl | rfl <;> decide

/-- Fewer than `2 ^ 32` values of `INT32` or `INT64` leave room in the state. -/
theorem hasRoom_of_card (ht : t = .int32 ∨ t = .int64) (hf : f.Declared types)
    (hadds : f.kind.AddsUp t) (hrs : ∀ r ∈ rs, List.Forall₂ Value.HasType r types)
    (hcard : rs.card < 2 ^ 32) : f.HasRoom rs := by
  intro width hwidth
  obtain rfl := Option.some.inj (hadds.sumWidth_eq.symm.trans hwidth)
  have hall : ∀ n ∈ rs.map fun r => (f.argument r).toInt, InWidth t.elemSize n := by
    intro n hn
    obtain ⟨r, hr, rfl⟩ := Multiset.mem_map.mp hn
    exact inWidth_argument (Or.inr ht) hf hadds (hrs r hr)
  have hlength : (rs.map fun r => (f.argument r).toInt).card < 2 ^ 32 := by
    rwa [Multiset.card_map]
  rcases ht with rfl | rfl
  · exact sumsFit_of_card (k := 4) hall hlength
  · exact sumsFit_of_card (k := 8) hall (hlength.trans (by norm_num))

/-- The partial sums of typed rows on some threads fit the state: for `INT32` and `INT64` always, for
`INT16` when they fit four bytes. -/
theorem partialSumsFit_iff (ht : t.IsSummable) (hf : f.Declared types) (hadds : f.kind.AddsUp t)
    (hrs : ∀ r ∈ rs, List.Forall₂ Value.HasType r types) (hcard : rs.card < 2 ^ 32) {n : ℕ}
    {threads : ℕ → List Row} (hperm : ((List.range n).flatMap threads : Multiset Row) = rs) :
    PartialSumsFit (sumResultTrait t).1.elemSize
        ((List.range n).map fun tid => f.integers (threads tid)) ↔
      (t = .int16 → PartialSumsFit 4 ((List.range n).map fun tid => f.integers (threads tid))) := by
  rcases ht with rfl | ht
  · exact ⟨fun h _ => h, fun h => h rfl⟩
  · have hroom := hasRoom_of_card ht hf hadds hrs hcard
    refine iff_of_true (hroom.partialSumsFit hadds.sumWidth_eq hperm) ?_
    rintro rfl
    simp at ht

/-- Where the partial sums fit, a state of all rows holds their exact sum. -/
theorem heldSum_eq_of_partialSumsFit (hadds : f.kind.AddsUp t) {s : f.kind.State}
    (hs : f.kind.Represents s (rs.map f.argument)) {n : ℕ} {threads : ℕ → List Row}
    (hperm : ((List.range n).flatMap threads : Multiset Row) = rs)
    (hfits : PartialSumsFit (sumResultTrait t).1.elemSize
      ((List.range n).map fun tid => f.integers (threads tid))) :
    f.kind.heldSum s = .int (exactSum (rs.map f.argument)) := by
  have hsum : exactSum (rs.map f.argument) =
      (((List.range n).map fun tid => f.integers (threads tid)).map List.sum).sum := by
    rw [← List.sum_flatten, ← List.flatMap_def, ← hperm]
    simp [exactSum, AggregationFunction.integers, List.map_flatMap, Function.comp_def]
  rw [hadds.heldSum_eq hs, wrap_eq_self (hsum ▸ hfits.2.sum)]

end adds

/-- `SumExpression` and `AvgExpression` over a column of type `t` create a kind that adds up. -/
theorem AggregateExpression.create_addsUp {e : AggregateExpression}
    (he : e.cls = .sum ∨ e.cls = .avg) {child out out' : Schema} {f : AggregationFunction}
    {t : ColumnType} (ht : t.IsSummable) (htype : child.getColumnTypeByName e.columnName = .ok t)
    (h : e.create child out = .ok (f, out')) :
    f.kind.AddsUp t ∧ f.Declared child.types := by
  obtain ⟨ind, t', outType, hlookup, hf, -⟩ := create_eq_ok h
  have hcls : e.cls ≠ .count := by rcases he with he | he <;> simp [he]
  obtain ⟨hind, ht'⟩ := lookup_eq_ok hlookup hcls
  obtain rfl : t' = t := by simpa [htype] using ht'.symm
  have hcol := Schema.types_getElem?_of_lookup hind htype
  have hadds : f.kind.AddsUp t' ∧ f.columnIndex = ind := by
    rcases he with he | he <;> rcases ht with rfl | rfl | rfl <;>
      simp only [he, functionFor, isRejected, Bool.false_eq_true, if_false, Except.ok.injEq,
        Prod.mk.injEq] at hf <;> obtain ⟨rfl, -⟩ := hf
    · exact ⟨Or.inl rfl, rfl⟩
    · exact ⟨Or.inl rfl, rfl⟩
    · exact ⟨Or.inl rfl, rfl⟩
    · exact ⟨Or.inr rfl, rfl⟩
    · exact ⟨Or.inr rfl, rfl⟩
    · exact ⟨Or.inr rfl, rfl⟩
  refine ⟨hadds.1, ⟨fun t₂ ht₂ => ?_, (functionFor_columnType hf).2⟩, (hadds.1.exact ht).1⟩
  rw [(hadds.1.exact ht).2, Option.some.injEq] at ht₂
  rw [hadds.2, ← ht₂]
  exact hcol

/-! ## When the sum is exact -/

/-- **No addition overflows iff the partial sums fit.** For every table with fewer than `2 ^ 32` rows,
every distribution of the rows over threads and every grouping: all additions of `SUM` and of `AVG`
stay in the state and its sum is the exact sum of the rows (of each group) iff the column is `INT32`
or `INT64`, or the partial sums of every thread and those of the merge fit four bytes. -/
theorem sum_exact_iff (P : Platform) (ord : IterationOrder) {e : AggregateExpression}
    (he : e.cls = .sum ∨ e.cls = .avg) {child : Schema} (out : Schema) {f : AggregationFunction}
    {t : ColumnType} (ht : t.IsSummable) (htype : child.getColumnTypeByName e.columnName = .ok t)
    (hcreate : e.create child default = .ok (f, out)) {n : ℕ} (hn : 0 < n)
    {calls : List (RecordBatch × ℕ)} (hcalls : ValidCalls child.types n calls)
    (hrows : (sunkRows calls).length < 2 ^ 32) :
    (∃ op g s, (AggregationSinkSourceOperator.create P [f] n).sinkAll P calls = some op ∧
      op.aggregationFunctions = [g] ∧ g.total P = some s ∧
      ((AggregationSinkSourceOperator.create P [f] n).AddsFit P calls ∧
          g.kind.heldSum s = .int (exactSum ((sunkRows calls : Multiset Row).map f.argument)) ↔
        (t = .int16 → PartialSumsFit 4 (f.threadIntegers calls n)))) ∧
    ∀ idxs keyTypes, KeyColumns child.types idxs keyTypes →
      ∃ op op' g ks states,
        (GroupBySinkSourceOperator.create idxs keyTypes [f] n).sinkAll P calls = some op ∧
        op.finalize P ord = some op' ∧ op'.aggFuncs = [g] ∧ g.threadStates[0]? = some states ∧
        Covers (keyOf idxs) ks (sunkRows calls) ∧
        ((GroupBySinkSourceOperator.create idxs keyTypes [f] n).AddsFit P ord calls ∧
            List.Forall₂ (fun k s => g.kind.heldSum s =
              .int (exactSum ((group (keyOf idxs) (sunkRows calls) k).map f.argument))) ks states ↔
          (t = .int16 → ∀ k, PartialSumsFit 4 (f.groupIntegers (keyOf idxs) k calls n))) := by
  obtain ⟨hadds, hdecl⟩ := e.create_addsUp he ht htype hcreate
  have haggs : ∀ a ∈ [f], a.Declared child.types := by simpa using hdecl
  have hargs : ∀ a ∈ [f], a.ArgumentsFit (sunkRows calls) := by
    simpa using argumentsFit_of_typed ht hdecl hadds hcalls.rows_typed
  have hsum := sum_threadRows fun c hc => (hcalls c hc).2.2
  have hperm := flatMap_threadRowList_perm fun c hc => (hcalls c hc).2.2
  constructor
  · obtain ⟨op, hop, hholds⟩ := AggregationSinkSourceOperator.sinkAll_holds (P := P) haggs hcalls
    have hadd := AggregationSinkSourceOperator.addsFit_iff (P := P) haggs hcalls hargs
    simp only [List.forall_mem_singleton, hadds.sumWidth_eq, Option.mem_some_iff,
      forall_eq'] at hadd
    obtain ⟨g, hg, rfl⟩ := List.map_eq_singleton_iff.mp hholds.specs
    obtain ⟨s, hs, hrep⟩ := GlobalAggregationFunction.total_represents (P := P) hn hdecl
      (hholds.funcs g (by simp [hg]))
    rw [hsum] at hrep
    have hrs := Multiset.coe_eq_coe.mpr hperm
    have htyped : ∀ r ∈ (sunkRows calls : Multiset Row), List.Forall₂ Value.HasType r child.types :=
      hcalls.rows_typed
    have hiff := partialSumsFit_iff ht hdecl hadds htyped (by simpa using hrows) hrs
    refine ⟨op, g, s, hop, hg, hs, ?_⟩
    rw [hadd, AggregationFunction.threadIntegers, hiff]
    refine ⟨And.left, fun hfits => ⟨hfits, ?_⟩⟩
    exact heldSum_eq_of_partialSumsFit hadds hrep hrs (hiff.mpr hfits)
  · intro idxs keyTypes hkeys
    have hbound : numKeys (keyOf idxs) (sunkRows calls) < 2 ^ 32 :=
      (numKeys_le_card _ _).trans_lt (by simpa using hrows)
    have hadd := GroupBySinkSourceOperator.addsFit_iff (P := P) ord hkeys haggs hn hcalls hargs hbound
    simp only [List.forall_mem_singleton, hadds.sumWidth_eq, Option.mem_some_iff,
      forall_eq'] at hadd
    obtain ⟨op, kst, hop, hholds⟩ :=
      GroupBySinkSourceOperator.sinkAll_holds (P := P) hkeys haggs hcalls hbound
    obtain ⟨glob, m, ks, hglob, hm, hmerge⟩ := GroupBySinkSourceOperator.mergeThreads_holds (P := P)
      ord haggs hkeys hn (by rwa [hsum]) hholds
    rw [hsum] at hmerge
    obtain ⟨g, hg, rfl⟩ := List.map_eq_singleton_iff.mp hmerge.specs
    obtain ⟨states, hstates, htracks⟩ := hmerge.global g (by simp [hg])
    have hfinal := GroupedAggregationFunction.finalize_eq_some (P := P) hdecl.output hstates
    have hgroups : ∀ k, ((List.range n).flatMap fun tid =>
        (threadRowList calls tid).filter fun r => keyOf idxs r = k : Multiset Row) =
          group (keyOf idxs) (sunkRows calls) k := by
      intro k
      rw [← List.filter_flatMap]
      exact Multiset.coe_eq_coe.mpr (hperm.filter _)
    have hsub : ∀ k, group (keyOf idxs) (sunkRows calls) k ≤ sunkRows calls :=
      fun k => Multiset.filter_le _ _
    have htyped : ∀ k, ∀ r ∈ group (keyOf idxs) (sunkRows calls) k,
        List.Forall₂ Value.HasType r child.types :=
      fun k r hr => hcalls.rows_typed r (Multiset.mem_coe.mp (Multiset.mem_of_le (hsub k) hr))
    have hiff := fun k => partialSumsFit_iff ht hdecl hadds (htyped k)
      ((Multiset.card_le_card (hsub k)).trans_lt (by simpa using hrows)) (hgroups k)
    refine ⟨op, _, g, ks, states, hop, GroupBySinkSourceOperator.finalize_eq_some ord hglob hm
      (by rw [hg, List.mapM_cons, hfinal]; rfl), hg, hstates, hmerge.covers, ?_⟩
    rw [hadd]
    simp only [AggregationFunction.groupIntegers, hiff]
    refine ⟨fun h ht k => h.1 k ht, fun h => ⟨fun k ht => h ht k, ?_⟩⟩
    apply htracks.imp
    intro k s hs
    exact heldSum_eq_of_partialSumsFit hadds hs (hgroups k) ((hiff k).mpr fun ht => h ht k)

/-- Two threads, `SUM` of an `INT16` column: the partial sums fit. -/
theorem sum_exact_iff_small :
    let child : Schema := ⟨[⟨ascii "w", .int16⟩]⟩
    let f : AggregationFunction := ⟨.typed .int16 .int32 .sum, 0, .int32⟩
    let calls : List (RecordBatch × ℕ) :=
      [(⟨1, none, [Column.ofValues .int16 [.int 5]]⟩, 1),
        (⟨1, some [1], [Column.ofValues .int16 [.int 6, .int (-32768)]]⟩, 0)]
    PartialSumsFit 4 (f.threadIntegers calls 2) ∧
    (∃ op g s, (AggregationSinkSourceOperator.create Platform.integral [f] 2).sinkAll
        Platform.integral calls = some op ∧
      op.aggregationFunctions = [g] ∧ g.total Platform.integral = some s ∧
      ((AggregationSinkSourceOperator.create Platform.integral [f] 2).AddsFit Platform.integral
          calls ∧
          g.kind.heldSum s = .int (exactSum ((sunkRows calls : Multiset Row).map f.argument)) ↔
        (ColumnType.int16 = .int16 → PartialSumsFit 4 (f.threadIntegers calls 2)))) ∧
    ∀ idxs keyTypes, KeyColumns child.types idxs keyTypes →
      ∃ op op' g ks states,
        (GroupBySinkSourceOperator.create idxs keyTypes [f] 2).sinkAll Platform.integral calls =
          some op ∧
        op.finalize Platform.integral ⟨id, fun _ => .refl _⟩ = some op' ∧ op'.aggFuncs = [g] ∧
        g.threadStates[0]? = some states ∧ Covers (keyOf idxs) ks (sunkRows calls) ∧
        ((GroupBySinkSourceOperator.create idxs keyTypes [f] 2).AddsFit Platform.integral
            ⟨id, fun _ => .refl _⟩ calls ∧
            List.Forall₂ (fun k s => g.kind.heldSum s =
              .int (exactSum ((group (keyOf idxs) (sunkRows calls) k).map f.argument))) ks states ↔
          (ColumnType.int16 = .int16 →
            ∀ k, PartialSumsFit 4 (f.groupIntegers (keyOf idxs) k calls 2))) := by
  intro child f calls
  exact ⟨by decide, sum_exact_iff Platform.integral ⟨id, fun _ => .refl _⟩
    (e := ⟨.sum, ascii "w", []⟩) (Or.inl rfl) ⟨[⟨ascii "sum_w", .int32⟩]⟩ (Or.inl rfl) rfl rfl
    (by decide) (by unfold ValidCalls; decide) (by decide)⟩

/-- A table of one column in which every row is `n`. -/
def constantTable (t : ColumnType) (rows : ℕ) (n : ℤ) : RecordBatch :=
  ⟨rows, none, [Column.ofValues t (List.replicate rows (.int n))]⟩

theorem constantTable_wellFormed (t : ColumnType) (rows : ℕ) (n : ℤ) :
    (constantTable t rows n).WellFormed :=
  ⟨rows, by simp [constantTable, Column.size], by simp [constantTable]⟩

theorem constantTable_rows {t : ColumnType} {n : ℤ} (h : (Value.int n).HasType t) (rows : ℕ) :
    (constantTable t rows n).rows = List.replicate rows [.int n] := by
  rw [List.eq_replicate_iff]
  refine ⟨(constantTable_wellFormed t rows n).length_rows, ?_⟩
  intro r hr
  obtain ⟨i, hi, rfl⟩ := List.mem_map.mp hr
  have hi' : i < rows := by simpa [constantTable, RecordBatch.selected] using hi
  simp [constantTable, RecordBatch.rowAt, hi', Value.conv_eq_self h]

/-- `SUM` of an `INT16` column over 65537 rows of -32768 overflows its state, which is `INT32`, and is
not the exact sum. -/
theorem sum_int16_overflows :
    let child : Schema := ⟨[⟨ascii "w", .int16⟩]⟩
    let f : AggregationFunction := ⟨.typed .int16 .int32 .sum, 0, .int32⟩
    let calls := [(constantTable .int16 65537 (-32768), 0)]
    AggregateExpression.create ⟨.sum, ascii "w", []⟩ child default =
        .ok (f, ⟨[⟨ascii "sum_w", .int32⟩]⟩) ∧
      ValidCalls child.types 1 calls ∧ (sunkRows calls).length < 2 ^ 32 ∧
      ¬ (AggregationSinkSourceOperator.create Platform.integral [f] 1).AddsFit Platform.integral
        calls ∧
      ∃ op g s, (AggregationSinkSourceOperator.create Platform.integral [f] 1).sinkAll
          Platform.integral calls = some op ∧
        op.aggregationFunctions = [g] ∧ g.total Platform.integral = some s ∧
        g.kind.heldSum s ≠ .int (exactSum ((sunkRows calls : Multiset Row).map f.argument)) := by
  intro child f calls
  have hvalid : ValidCalls child.types 1 calls := by
    intro c hc
    obtain rfl := List.mem_singleton.mp hc
    exact ⟨constantTable_wellFormed _ _ _, rfl, by decide⟩
  have hrows : sunkRows calls = List.replicate 65537 [.int (-32768)] := by
    simp only [calls, sunkRows, List.flatMap_cons, List.flatMap_nil, List.append_nil]
    exact constantTable_rows (by decide) _
  have hlen : (sunkRows calls).length < 2 ^ 32 := by
    rw [hrows, List.length_replicate]
    decide
  have hargs : (sunkRows calls : Multiset Row).map f.argument =
      Multiset.replicate 65537 (.int (-32768)) := by
    rw [hrows, Multiset.coe_replicate, Multiset.map_replicate]
    rfl
  have hsum : exactSum (Multiset.replicate 65537 (.int (-32768))) = -2147516416 := by
    rw [exactSum, Multiset.map_replicate, Multiset.sum_replicate, nsmul_eq_mul, Value.toInt]
    norm_num
  have hadds : f.kind.AddsUp .int16 := Or.inl rfl
  have hdecl : ∀ a ∈ [f], a.Declared child.types := by
    intro a ha
    obtain rfl := List.mem_singleton.mp ha
    exact ⟨⟨by decide, rfl⟩, by decide, by decide⟩
  obtain ⟨op, hop, hholds⟩ :=
    AggregationSinkSourceOperator.sinkAll_holds (P := Platform.integral) hdecl hvalid
  obtain ⟨g, hg, hgf⟩ := List.map_eq_singleton_iff.mp hholds.specs
  have hdecl' : g.Declared child.types := hgf ▸ hdecl f List.mem_cons_self
  have hargs' : (sunkRows calls : Multiset Row).map g.argument =
      Multiset.replicate 65537 (.int (-32768)) := hgf ▸ hargs
  obtain ⟨s, hs, hrep⟩ := GlobalAggregationFunction.total_represents (P := Platform.integral)
    (by decide) hdecl' (hholds.funcs g (by simp [hg]))
  rw [sum_threadRows fun c hc => (hvalid c hc).2.2, hargs'] at hrep
  have hoverflow : ¬ (AggregationSinkSourceOperator.create Platform.integral [f] 1).AddsFit
      Platform.integral calls := by
    have hfit : ∀ a ∈ [f], a.ArgumentsFit (sunkRows calls) := by
      simpa using argumentsFit_of_typed (Or.inl rfl) (hdecl f List.mem_cons_self) hadds
        hvalid.rows_typed
    rw [AggregationSinkSourceOperator.addsFit_iff hdecl hvalid hfit]
    intro hall
    have hthread := (hall f List.mem_cons_self 4 hadds.sumWidth_eq).1 _ List.mem_cons_self
    have htotal : (f.integers (threadRowList calls 0)).sum =
        exactSum ((sunkRows calls : Multiset Row).map f.argument) := by
      simp [exactSum, AggregationFunction.integers, threadRowList, threadBatches, sunkRows, calls,
        Function.comp_def]
    have hsmall := hthread.sum
    rw [htotal, hargs, hsum] at hsmall
    exact absurd hsmall (by decide)
  refine ⟨rfl, hvalid, hlen, hoverflow, op, g, s, hop, hg, hs, ?_⟩
  rw [hargs, hsum, (hgf ▸ hadds : g.kind.AddsUp .int16).heldSum_eq hrep, hsum]
  decide

end ColumnarEngine
