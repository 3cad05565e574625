import ColumnarEngine.Exec.AggregateExpressions
import ColumnarEngine.Exec.AggregationOperator
import ColumnarEngine.Exec.GroupByCorrect

/-!
# The additions of SUM and AVG

The states of `SUM` and `AVG` are signed integers, whose `+=` is defined only while the sum stays in
the type. The conditions below say so for each addition at the place where it is made: in the loop
of `Update`, and in the merge of `WriteResult` and of `CombineState`. `AddsFit` asks it of a whole
run. For the values it means that every partial sum of every thread, and every partial sum of the
merge, fits the state (`AggregationSinkSourceOperator.addsFit_iff`,
`GroupBySinkSourceOperator.addsFit_iff`).
-/

namespace ColumnarEngine

open Found

/-! ## The condition on an addition -/

namespace AggregateKind

/-- What the body of `Update` adds to a state fits; `SUM` stores its first value. -/
def StepFits : (k : AggregateKind) → k.State → Value → Prop
  | typed _ output .sum, s, v =>
      s.hasData = true → InWidth output.elemSize (s.value.toInt + v.toInt)
  | avg _ _ state, s, v => InWidth state.elemSize (s.sum.toInt + v.toInt)
  | _, _, _ => True

/-- What the merge of two states adds fits; `SUM` takes over the first state with data. -/
def MergeFits : (k : AggregateKind) → k.State → k.State → Prop
  | typed _ output .sum, s, s' =>
      s'.hasData = true → s.hasData = true →
        InWidth output.elemSize (s.value.toInt + s'.value.toInt)
  | avg _ _ state, s, s' => InWidth state.elemSize (s.sum.toInt + s'.sum.toInt)
  | _, _, _ => True

end AggregateKind

section conditions

variable (P : Platform)

/-- The additions of `Update` fit. -/
def GlobalAggregationFunction.UpdateFits (f : GlobalAggregationFunction) (batch : RecordBatch)
    (threadId : ℕ) : Prop :=
  ∀ s vs, f.threadStates[threadId]? = some s → f.kind.inputs f.columnIndex batch = some vs →
    MeetsAll (fun s v => some ((f.kind.accumulator P).step s v)) f.kind.StepFits s vs

/-- The additions of the merge in `WriteResult` fit. -/
def GlobalAggregationFunction.TotalFits (f : GlobalAggregationFunction) : Prop :=
  MeetsAll (fun s s' => some ((f.kind.accumulator P).merge s s')) f.kind.MergeFits
    (f.kind.accumulator P).init f.threadStates

/-- Every addition of a run of `Sink` calls and of the merge after it fits its state. -/
structure AggregationSinkSourceOperator.AddsFit (op : AggregationSinkSourceOperator)
    (calls : List (RecordBatch × ℕ)) : Prop where
  sinks : MeetsAll (fun op c => op.sink P c.1 c.2)
    (fun op c => ∀ f ∈ op.aggregationFunctions, f.UpdateFits P c.1 c.2) op calls
  merge : ∀ op', op.sinkAll P calls = some op' → ∀ f ∈ op'.aggregationFunctions, f.TotalFits P

namespace GroupedAggregationFunction

/-- The additions of `Update` fit. -/
def UpdateFits (f : GroupedAggregationFunction) (batch : RecordBatch) (groupIds : List ℕ)
    (threadId : ℕ) : Prop :=
  ∀ states vs, f.threadStates[threadId]? = some states →
    f.kind.inputs f.columnIndex batch = some vs →
      MeetsAll (fun l e => modifyAt l e.2 fun s => (f.kind.accumulator P).step s e.1)
        (fun l e => ∀ s, l[e.2]? = some s → f.kind.StepFits s e.1) states (vs.zip groupIds)

/-- The addition of `CombineState` fits. -/
def CombineFits (f : GroupedAggregationFunction) (srcThread srcGid globalGid : ℕ) : Prop :=
  ∀ src s glob g, f.threadStates[srcThread]? = some src → src[srcGid]? = some s →
    f.threadStates[0]? = some glob → glob[globalGid]? = some g → f.kind.MergeFits g s

end GroupedAggregationFunction

namespace GroupBySinkSourceOperator

/-- The additions of `Sink` fit: those of `Update` with the groups that the batch is given. -/
def SinkFits (op : GroupBySinkSourceOperator) (batch : RecordBatch) (threadId : ℕ) : Prop :=
  ∀ loc keys a, op.threadStates[threadId]? = some loc → op.compositeKeys batch = some keys →
    keys.zipIdx.foldlM (assignGroup batch) ⟨loc.hashTable, loc.numGroups, [], []⟩ = some a →
      ∀ f ∈ op.aggFuncs, ∀ f', f.resize P a.numGroups threadId = some f' →
        f'.UpdateFits P batch a.groupIds threadId

/-- The additions of one round of the loop over the hash table of thread `t` fit. -/
def MergeEntryFits (t : ℕ) (m : Merge) (entry : Bytes × ℕ) : Prop :=
  match m.glob.hashTable.lookup entry.1 with
  | some target => ∀ f ∈ m.aggFuncs, f.CombineFits t entry.2 target
  | none => ∀ f ∈ m.aggFuncs, ∀ f', f.resize P (m.glob.numGroups + 1) 0 = some f' →
      f'.CombineFits t entry.2 (toUInt32 m.glob.numGroups)

/-- The additions of one round of the loop over the threads `1 ..` fit. -/
def MergeThreadFits (ord : IterationOrder) (m : Merge) (thread : GroupByThreadState × ℕ) : Prop :=
  thread.1.numGroups ≠ 0 →
    MeetsAll (mergeEntry P thread.2 (thread.1.keyBuilders.map ColumnBuilder.finish))
      (MergeEntryFits P thread.2) m (ord.order thread.1.hashTable)

/-- The additions of `Finalize` fit. -/
def FinalizeFits (ord : IterationOrder) (op : GroupBySinkSourceOperator) : Prop :=
  ∀ glob, op.threadStates[0]? = some glob →
    MeetsAll (mergeThread P ord) (MergeThreadFits P ord)
      ⟨{ glob with keyBuilders := op.ensureBuilders glob.keyBuilders }, op.aggFuncs⟩
      (op.threadStates.zipIdx.drop 1)

/-- Every addition of a run of `Sink` calls and of the merge after it fits its state. -/
structure AddsFit (ord : IterationOrder) (op : GroupBySinkSourceOperator)
    (calls : List (RecordBatch × ℕ)) : Prop where
  sinks : MeetsAll (fun op c => op.sink P c.1 c.2) (fun op c => op.SinkFits P c.1 c.2) op calls
  merge : ∀ op', op.sinkAll P calls = some op' → op'.FinalizeFits P ord

end GroupBySinkSourceOperator

end conditions

/-! ## One state -/

namespace AggregateKind

/-- The bytes of the state that `SUM` and `AVG` add to. -/
def sumWidth : AggregateKind → Option ℕ
  | typed _ output .sum => some output.elemSize
  | avg _ _ state => some state.elemSize
  | _ => none

variable {P : Platform} {k : AggregateKind} {width : ℕ}

/-- Other kinds add nothing. -/
theorem fits_of_sumWidth_eq_none (hk : k.sumWidth = none) :
    (∀ (s : k.State) (v : Value), k.StepFits s v) ∧ ∀ s s' : k.State, k.MergeFits s s' := by
  cases k with
  | typed input output op =>
      cases op with
      | sum => cases hk
      | max | min => exact ⟨fun _ _ => trivial, fun _ _ => trivial⟩
  | avg input output state => cases hk
  | count output | distinctCount input output => exact ⟨fun _ _ => trivial, fun _ _ => trivial⟩

/-- A wrapped sum that fits is the sum. -/
theorem toInt_eq_of_wrap {v : Value} {n : ℤ} (hv : v = .int (wrap width n))
    (hn : InWidth width n) : v.toInt = n := by
  rw [hv]
  exact wrap_eq_self hn

/-- The addition of a value to a state that holds an exact sum. -/
theorem stepFits_iff (hk : width ∈ k.sumWidth) {s : k.State} {m : Multiset Value}
    (hs : k.Represents s m) (hm : InWidth width (exactSum m)) {v : Value}
    (hv : InWidth width v.toInt) : k.StepFits s v ↔ InWidth width (exactSum m + v.toInt) := by
  cases k with
  | typed input output op =>
      cases op with
      | sum =>
          obtain rfl := Option.some.inj hk
          obtain ⟨hdata, hvalue⟩ := hs
          have hsum : s.value.toInt = exactSum m := toInt_eq_of_wrap hvalue hm
          rw [StepFits, hsum]
          constructor
          · intro h
            by_cases hd : s.hasData = true
            · exact h hd
            · -- the first value is stored
              obtain rfl : m = 0 := by simpa [hd] using hdata
              rwa [exactSum_zero, zero_add]
          · exact fun h _ => h
      | max | min => cases hk
  | avg input output state =>
      obtain rfl := Option.some.inj hk
      obtain ⟨hvalue, -⟩ := hs
      have hsum : s.sum.toInt = exactSum m := toInt_eq_of_wrap hvalue hm
      rw [StepFits, hsum]
  | count output | distinctCount input output => cases hk

/-- The addition of a state to another, both of which hold exact sums. -/
theorem mergeFits_iff (hk : width ∈ k.sumWidth) {s s' : k.State} {m m' : Multiset Value}
    (hs : k.Represents s m) (hs' : k.Represents s' m') (hm : InWidth width (exactSum m))
    (hm' : InWidth width (exactSum m')) :
    k.MergeFits s s' ↔ InWidth width (exactSum m + exactSum m') := by
  cases k with
  | typed input output op =>
      cases op with
      | sum =>
          obtain rfl := Option.some.inj hk
          obtain ⟨hdata, hvalue⟩ := hs
          obtain ⟨hdata', hvalue'⟩ := hs'
          have hsum : s.value.toInt = exactSum m := toInt_eq_of_wrap hvalue hm
          have hsum' : s'.value.toInt = exactSum m' := toInt_eq_of_wrap hvalue' hm'
          rw [MergeFits, hsum, hsum']
          constructor
          · intro h
            -- a state without data holds no sum
            by_cases hd' : s'.hasData = true
            · by_cases hd : s.hasData = true
              · exact h hd' hd
              · obtain rfl : m = 0 := by simpa [hd] using hdata
                rwa [exactSum_zero, zero_add]
            · obtain rfl : m' = 0 := by simpa [hd'] using hdata'
              rwa [exactSum_zero, add_zero]
          · exact fun h _ _ => h
      | max | min => cases hk
  | avg input output state =>
      obtain rfl := Option.some.inj hk
      obtain ⟨hvalue, -⟩ := hs
      obtain ⟨hvalue', -⟩ := hs'
      have hsum : s.sum.toInt = exactSum m := toInt_eq_of_wrap hvalue hm
      have hsum' : s'.sum.toInt = exactSum m' := toInt_eq_of_wrap hvalue' hm'
      rw [MergeFits, hsum, hsum']
  | count output | distinctCount input output => cases hk

/-- The loop of `Update` over values: its additions fit if the partial sums do. -/
theorem steps_iff (hexact : k.Exact) (hk : width ∈ k.sumWidth) {old vs : List Value} {s : k.State}
    (hs : k.Represents s old) (hold : PrefixSumsFit width (old.map Value.toInt))
    (hvs : ∀ v ∈ vs, k.Accepts v ∧ InWidth width v.toInt) :
    MeetsAll (fun s v => some ((k.accumulator P).step s v)) k.StepFits s vs ↔
      PrefixSumsFit width ((old ++ vs).map Value.toInt) := by
  refine meetsAll_iff (I := fun done s => k.Represents s (old ++ done : List Value))
    (F := fun done => PrefixSumsFit width ((old ++ done).map Value.toInt))
    (by simpa using hs) (by simpa using hold) ?_ ?_
  · intro done rest h
    apply h.of_initial
    apply List.IsPrefix.map
    rw [← List.append_assoc]
    exact List.prefix_append _ _
  · intro done v rest hvs' s hs hdone
    obtain ⟨haccepts, hv⟩ := hvs v (hvs' ▸ List.mem_append_right _ List.mem_cons_self)
    have hsum : exactSum ((old ++ done : List Value) : Multiset Value) =
        ((old ++ done).map Value.toInt).sum := by simp [exactSum]
    refine ⟨?_, _, rfl, ?_⟩
    · have happend : (old ++ (done ++ [v])).map Value.toInt =
          (old ++ done).map Value.toInt ++ [v.toInt] := by simp
      rw [stepFits_iff hk hs (hsum ▸ hdone.sum) hv, happend, prefixSumsFit_concat, hsum]
      exact (and_iff_right hdone).symm
    · have hcoe : ((old ++ (done ++ [v]) : List Value) : Multiset Value) =
          v ::ₘ (old ++ done : List Value) := by
        rw [← List.append_assoc]
        exact Multiset.coe_eq_coe.mpr (List.perm_append_singleton v _)
      rw [hcoe]
      exact (AggregateKind.summarizes hexact).step haccepts hs

/-- The loop of the merge over states: its additions fit if the partial sums of their sums do. -/
theorem merges_iff (hexact : k.Exact) (hk : width ∈ k.sumWidth) {ss : List k.State}
    {vss : List (List Value)}
    (hss : List.Forall₂ (fun (s : k.State) (vs : List Value) => k.Represents s vs) ss vss)
    {s : k.State} {m : Multiset Value} {ns : List ℤ} (hs : k.Represents s m)
    (hm : exactSum m = ns.sum) (hns : PrefixSumsFit width ns)
    (hvss : ∀ vs ∈ vss, InWidth width (vs.map Value.toInt).sum) :
    MeetsAll (fun s s' => some ((k.accumulator P).merge s s')) k.MergeFits s ss ↔
      PrefixSumsFit width (ns ++ vss.map fun vs => (vs.map Value.toInt).sum) := by
  induction hss generalizing s m ns with
  | nil => exact iff_of_true trivial (by simpa using hns)
  | @cons s' vs ss vss hs' _ ih =>
      rw [List.forall_mem_cons] at hvss
      have hvs : exactSum (vs : Multiset Value) = (vs.map Value.toInt).sum := by simp [exactSum]
      have hsplit : ns ++ (vs :: vss).map (fun vs => (vs.map Value.toInt).sum) =
          (ns ++ [(vs.map Value.toInt).sum]) ++ vss.map fun vs => (vs.map Value.toInt).sum := by simp
      have hmerge : k.MergeFits s s' ↔ PrefixSumsFit width (ns ++ [(vs.map Value.toInt).sum]) := by
        rw [mergeFits_iff hk hs hs' (hm ▸ hns.sum) (hvs ▸ hvss.1), prefixSumsFit_concat, hm, hvs]
        exact (and_iff_right hns).symm
      have hnext := (AggregateKind.summarizes (P := P) hexact).merge hs hs'
      have hsum : exactSum (m + vs) = (ns ++ [(vs.map Value.toInt).sum]).sum := by
        rw [exactSum_add, hm, hvs, List.sum_append, List.sum_singleton]
      rw [hsplit]
      constructor
      · rintro ⟨hfits, hrest⟩
        exact (ih hnext hsum (hmerge.mp hfits) hvss.2).mp (hrest _ rfl)
      · intro hall
        have hfirst := hall.of_initial (List.prefix_append _ _)
        refine ⟨hmerge.mpr hfirst, ?_⟩
        rintro _ ⟨⟩
        exact (ih hnext hsum hfirst hvss.2).mpr hall

end AggregateKind

/-! ## The values of a run -/

/-- The partial sums of every thread, and those of the sums of the threads, fit. -/
def PartialSumsFit (width : ℕ) (threads : List (List ℤ)) : Prop :=
  (∀ ns ∈ threads, PrefixSumsFit width ns) ∧ PrefixSumsFit width (threads.map List.sum)

instance (width : ℕ) (threads : List (List ℤ)) : Decidable (PartialSumsFit width threads) := by
  unfold PartialSumsFit
  infer_instance

/-- Values whose sums fit in any order can be distributed over any threads. -/
theorem partialSumsFit_of_sumsFit {width : ℕ} {threads : List (List ℤ)}
    (h : SumsFit width threads.flatten) : PartialSumsFit width threads := by
  constructor
  · intro ns hns p hp
    have hle : (p : Multiset ℤ) ≤ threads.flatten := by
      have hpre := ((List.mem_inits p ns).mp hp).sublist
      exact (hpre.trans (List.sublist_flatten_of_mem hns)).subperm
    simpa using h.inWidth_of_le hle
  · intro p hp
    obtain ⟨before, hbefore, rfl⟩ := List.prefix_map_iff.mp ((List.mem_inits p _).mp hp)
    have hle : (before.flatten : Multiset ℤ) ≤ threads.flatten := hbefore.sublist.flatten.subperm
    have hfits := h.inWidth_of_le hle
    rwa [Multiset.sum_coe, List.sum_flatten] at hfits

namespace AggregationFunction

/-- The integers that the function takes of some rows. -/
def integers (f : AggregationFunction) (rows : List Row) : List ℤ :=
  rows.map fun r => (f.argument r).toInt

/-- The integers that the function takes of the rows of each thread, in the order in which they are
sunk. -/
def threadIntegers (f : AggregationFunction) (calls : List (RecordBatch × ℕ)) (n : ℕ) :
    List (List ℤ) :=
  (List.range n).map fun t => f.integers (threadRowList calls t)

/-- The same for the rows of one group. -/
def groupIntegers (f : AggregationFunction) (key : Row → Row) (k : Row)
    (calls : List (RecordBatch × ℕ)) (n : ℕ) : List (List ℤ) :=
  (List.range n).map fun t => f.integers ((threadRowList calls t).filter fun r => key r = k)

/-- Each of the integers fits the state of the function. -/
def ArgumentsFit (f : AggregationFunction) (rows : List Row) : Prop :=
  ∀ width ∈ f.kind.sumWidth, ∀ r ∈ rows, InWidth width (f.argument r).toInt

/-- The state has room for the rows, in whatever order their integers are added. -/
def HasRoom (f : AggregationFunction) (rs : Multiset Row) : Prop :=
  ∀ width ∈ f.kind.sumWidth, SumsFit width (rs.map fun r => (f.argument r).toInt)

instance (f : AggregationFunction) (rs : Multiset Row) : Decidable (f.HasRoom rs) := by
  unfold HasRoom
  infer_instance

variable {f : AggregationFunction} {rs rs' : Multiset Row} {rows : List Row} {width : ℕ}

theorem HasRoom.mono (h : f.HasRoom rs) (hle : rs' ≤ rs) : f.HasRoom rs' :=
  fun width hwidth => (h width hwidth).mono (Multiset.map_le_map hle)

/-- Each of the integers fits. -/
theorem HasRoom.argumentsFit (h : f.HasRoom rows) : f.ArgumentsFit rows := by
  intro width hwidth r hr
  have hle : ({(f.argument r).toInt} : Multiset ℤ) ≤
      (rows : Multiset Row).map fun r => (f.argument r).toInt :=
    Multiset.singleton_le.mpr (Multiset.mem_map_of_mem _ (Multiset.mem_coe.mpr hr))
  simpa using (h width hwidth).inWidth_of_le hle

/-- The partial sums fit for every distribution of the rows over threads. -/
theorem HasRoom.partialSumsFit (h : f.HasRoom rs) (hwidth : width ∈ f.kind.sumWidth) {n : ℕ}
    {threads : ℕ → List Row} (hrs : ((List.range n).flatMap threads : Multiset Row) = rs) :
    PartialSumsFit width ((List.range n).map fun t => f.integers (threads t)) := by
  apply partialSumsFit_of_sumsFit
  have hflatten : ((List.range n).map fun t => f.integers (threads t)).flatten =
      ((List.range n).flatMap threads).map fun r => (f.argument r).toInt := by
    rw [← List.flatMap_def, List.map_flatMap]
    rfl
  rw [hflatten, ← Multiset.map_coe, hrs]
  exact h width hwidth

end AggregationFunction

section run

variable {P : Platform} {types : List ColumnType} {aggs : List AggregationFunction} {n : ℕ}
  {calls : List (RecordBatch × ℕ)}

/-- The additions of `Update`. -/
theorem GlobalAggregationFunction.updateFits_iff {g : GlobalAggregationFunction} {b : RecordBatch}
    (hb : b.WellFormed) (hg : g.Declared b.types) (hargs : g.ArgumentsFit b.rows) {tid : ℕ}
    {s : g.kind.State} {old : List Row} (hs : g.threadStates[tid]? = some s)
    (hrep : g.kind.Represents s ((old : Multiset Row).map g.argument))
    (hold : ∀ width ∈ g.kind.sumWidth, PrefixSumsFit width (g.integers old)) :
    g.UpdateFits P b tid ↔
      ∀ width ∈ g.kind.sumWidth, PrefixSumsFit width (g.integers (old ++ b.rows)) := by
  have hinputs := hg.inputs_eq hb
  have hloop : g.UpdateFits P b tid ↔
      MeetsAll (fun s v => some ((g.kind.accumulator P).step s v)) g.kind.StepFits s
        (b.rows.map g.argument) := by
    constructor
    · exact fun h => h s _ hs hinputs
    · intro h s' vs hs' hvs'
      obtain rfl := Option.some.inj (hs.symm.trans hs')
      obtain rfl := Option.some.inj (hinputs.symm.trans hvs')
      exact h
  rw [hloop]
  cases hwidth : g.kind.sumWidth with
  | none =>
      have hnone := (AggregateKind.fits_of_sumWidth_eq_none hwidth).1
      exact iff_of_true (meetsAll_of_forall hnone _ _) (by simp)
  | some width =>
      have hvalues : g.kind.Represents s (old.map g.argument : List Value) := hrep
      have hsteps := AggregateKind.steps_iff (P := P) hg.exact hwidth hvalues
        (by
          rw [List.map_map]
          exact hold width hwidth)
        (by
          intro v hv
          obtain ⟨r, hr, rfl⟩ := List.mem_map.mp hv
          exact ⟨hg.accepts (hb.rows_typed r hr), hargs width hwidth r hr⟩)
      rw [← List.map_append, List.map_map] at hsteps
      simp only [Option.mem_some_iff, forall_eq']
      exact hsteps

namespace AggregationSinkSourceOperator

/-- The additions of a run of `Sink` calls. -/
theorem sinksFit_iff (haggs : ∀ f ∈ aggs, f.Declared types) (hcalls : ValidCalls types n calls)
    (hargs : ∀ f ∈ aggs, f.ArgumentsFit (sunkRows calls)) :
    MeetsAll (fun op c => op.sink P c.1 c.2)
        (fun op c => ∀ g ∈ op.aggregationFunctions, g.UpdateFits P c.1 c.2) (create P aggs n)
        calls ↔
      ∀ tid < n, ∀ f ∈ aggs, ∀ width ∈ f.kind.sumWidth,
        PrefixSumsFit width (f.integers (threadRowList calls tid)) := by
  refine meetsAll_iff (I := fun done op => Holds aggs n (threadRows done) op)
    (F := fun done => ∀ tid < n, ∀ f ∈ aggs, ∀ width ∈ f.kind.sumWidth,
      PrefixSumsFit width (f.integers (threadRowList done tid)))
    (create_holds haggs) ?_ ?_ ?_
  · exact fun tid _ f _ width _ => prefixSumsFit_nil width
  · intro done rest h tid htid f hf width hwidth
    apply (h tid htid f hf width hwidth).of_initial
    rw [threadRowList_append]
    exact (List.prefix_append _ _).map _
  · rintro done ⟨b, tid⟩ rest hl op hholds hdone
    obtain ⟨hb, rfl, htid⟩ := hcalls (b, tid) (by simp [hl])
    obtain ⟨op', hop', hholds'⟩ := sink_holds (P := P) haggs hholds hb rfl htid
    refine ⟨?_, op', hop', by rw [threadRows_append]; exact hholds'⟩
    have hrows : ∀ r ∈ b.rows, r ∈ sunkRows calls := by
      intro r hr
      exact List.mem_flatMap.mpr ⟨(b, tid), by simp [hl], hr⟩
    have hupdate : (∀ g ∈ op.aggregationFunctions, g.UpdateFits P b tid) ↔
        ∀ f ∈ aggs, ∀ width ∈ f.kind.sumWidth,
          PrefixSumsFit width (f.integers (threadRowList done tid ++ b.rows)) := by
      rw [← hholds.specs, List.forall_mem_map]
      apply forall₂_congr
      intro g hg
      have hmem : g.toAggregationFunction ∈ aggs := hholds.specs ▸ List.mem_map_of_mem hg
      obtain ⟨hlen, hstates⟩ := hholds.funcs g hg
      have hs := List.getElem?_eq_getElem (hlen ▸ htid : tid < g.threadStates.length)
      exact GlobalAggregationFunction.updateFits_iff hb (haggs _ hmem)
        (fun width hwidth r hr => hargs _ hmem width hwidth r (hrows r hr)) hs (hstates tid _ hs)
        (hdone tid htid _ hmem)
    rw [hupdate]
    exact (forall_threadRowList_concat_iff (Q := fun rows => ∀ f ∈ aggs, ∀ width ∈ f.kind.sumWidth,
      PrefixSumsFit width (f.integers rows)) htid hdone).symm

/-- The additions of the merge of one function, where the sums of the threads fit. -/
theorem totalFits_iff {g : GlobalAggregationFunction} (hg : g.Declared types)
    (hholds : g.Holds n (threadRows calls))
    (hfits : ∀ tid < n, ∀ width ∈ g.kind.sumWidth,
      PrefixSumsFit width (g.integers (threadRowList calls tid))) :
    g.TotalFits P ↔ ∀ width ∈ g.kind.sumWidth,
      PrefixSumsFit width ((g.threadIntegers calls n).map List.sum) := by
  cases hwidth : g.kind.sumWidth with
  | none =>
      have hnone := (AggregateKind.fits_of_sumWidth_eq_none hwidth).2
      exact iff_of_true (meetsAll_of_forall hnone _ _) (by simp)
  | some width =>
      obtain ⟨hlen, hstates⟩ := hholds
      have hss : List.Forall₂ (fun (s : g.kind.State) (vs : List Value) => g.kind.Represents s vs)
          g.threadStates
          ((List.range n).map fun tid => (threadRowList calls tid).map g.argument) := by
        rw [List.forall₂_iff_get]
        refine ⟨by simp [hlen], ?_⟩
        intro tid htid _
        rw [List.get_eq_getElem, List.get_eq_getElem, List.getElem_map, List.getElem_range]
        exact hstates tid _ (List.getElem?_eq_getElem htid)
      have hzero : exactSum 0 = ([] : List ℤ).sum := rfl
      simp only [Option.mem_some_iff, forall_eq']
      rw [GlobalAggregationFunction.TotalFits, AggregateKind.merges_iff hg.exact hwidth hss
        (AggregateKind.summarizes hg.exact).init hzero (prefixSumsFit_nil _)]
      · simp only [List.nil_append, List.map_map, AggregationFunction.threadIntegers,
          Function.comp_def, AggregationFunction.integers]
      · intro vs hvs
        obtain ⟨tid, htid, rfl⟩ := List.mem_map.mp hvs
        rw [List.map_map]
        exact (hfits tid (List.mem_range.mp htid) width hwidth).sum

/-- **The additions of a run**, with the merge of the threads. -/
theorem addsFit_iff (haggs : ∀ f ∈ aggs, f.Declared types) (hcalls : ValidCalls types n calls)
    (hargs : ∀ f ∈ aggs, f.ArgumentsFit (sunkRows calls)) :
    (create P aggs n).AddsFit P calls ↔
      ∀ f ∈ aggs, ∀ width ∈ f.kind.sumWidth, PartialSumsFit width (f.threadIntegers calls n) := by
  have hsinks := sinksFit_iff (P := P) haggs hcalls hargs
  obtain ⟨op, hop, hholds⟩ := sinkAll_holds (P := P) haggs hcalls
  have hmerge : (∀ tid < n, ∀ f ∈ aggs, ∀ width ∈ f.kind.sumWidth,
      PrefixSumsFit width (f.integers (threadRowList calls tid))) →
      ((∀ g ∈ op.aggregationFunctions, g.TotalFits P) ↔ ∀ f ∈ aggs, ∀ width ∈ f.kind.sumWidth,
        PrefixSumsFit width ((f.threadIntegers calls n).map List.sum)) := by
    intro hfits
    rw [← hholds.specs, List.forall_mem_map]
    apply forall₂_congr
    intro g hg
    have hmem : g.toAggregationFunction ∈ aggs := hholds.specs ▸ List.mem_map_of_mem hg
    exact totalFits_iff (haggs _ hmem) (hholds.funcs g hg) fun tid htid => hfits tid htid _ hmem
  constructor
  · rintro ⟨hmeets, htotal⟩ f hf width hwidth
    have hfits := hsinks.mp hmeets
    refine ⟨?_, (hmerge hfits).mp (htotal op hop) f hf width hwidth⟩
    intro ns hns
    obtain ⟨tid, htid, rfl⟩ := List.mem_map.mp hns
    exact hfits tid (List.mem_range.mp htid) f hf width hwidth
  · intro hall
    have hfits : ∀ tid < n, ∀ f ∈ aggs, ∀ width ∈ f.kind.sumWidth,
        PrefixSumsFit width (f.integers (threadRowList calls tid)) := by
      intro tid htid f hf width hwidth
      exact (hall f hf width hwidth).1 _ (List.mem_map_of_mem (List.mem_range.mpr htid))
    refine ⟨hsinks.mpr hfits, ?_⟩
    intro op' hop'
    obtain rfl := Option.some.inj (hop.symm.trans hop')
    exact (hmerge hfits).mpr fun f hf width hwidth => (hall f hf width hwidth).2

/-- No addition leaves its state if the states have room for the rows. -/
theorem addsFit_of_hasRoom (haggs : ∀ f ∈ aggs, f.Declared types) (hcalls : ValidCalls types n calls)
    (hroom : ∀ f ∈ aggs, f.HasRoom (sunkRows calls)) : (create P aggs n).AddsFit P calls := by
  rw [addsFit_iff haggs hcalls fun f hf => (hroom f hf).argumentsFit]
  intro f hf width hwidth
  apply (hroom f hf).partialSumsFit hwidth
  exact Multiset.coe_eq_coe.mpr (flatMap_threadRowList_perm fun c hc => (hcalls c hc).2.2)

end AggregationSinkSourceOperator

end run

end ColumnarEngine
