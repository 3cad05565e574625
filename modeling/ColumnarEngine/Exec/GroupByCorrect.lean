import ColumnarEngine.Exec.GroupByRun
import ColumnarEngine.Exec.SinkCalls

/-!
# GROUP BY is correct for every distribution over threads

`Finalize` takes the groups of the threads `1 ..` into those of thread 0, entry by entry
(`mergeEntry_holds`), in whatever order the hash tables are iterated. The result has one row for
each key tuple of the rows sunk on any thread, and carries the aggregates over exactly the rows with
that key (`groupBy_correct`).
-/

namespace ColumnarEngine

open Found

namespace GroupBySinkSourceOperator

variable {P : Platform} {types keyTypes : List ColumnType} {idxs : List ℕ}
  {aggs : List AggregationFunction} {n : ℕ}

/-- **A run of `Sink` calls**: every thread holds the rows sunk on it. -/
theorem sinkAll_holds (hkeys : KeyColumns types idxs keyTypes)
    (haggs : ∀ f ∈ aggs, f.Declared types)
    {calls : List (RecordBatch × ℕ)} (hcalls : ValidCalls types n calls)
    (hbound : numKeys (keyOf idxs) (sunkRows calls) < 2 ^ 32) :
    ∃ op ks, (create idxs keyTypes aggs n).sinkAll P calls = some op ∧
      Holds types idxs keyTypes aggs n ks (threadRows calls) op := by
  obtain ⟨op, hop, ks, hholds⟩ := exists_foldlM (l := calls) (s := create idxs keyTypes aggs n)
    (f := fun op c => op.sink P c.1 c.2)
    (I := fun done op => ∃ ks, Holds types idxs keyTypes aggs n ks (threadRows done) op)
    ⟨_, create_holds types idxs keyTypes aggs n⟩
    (by
      rintro done c rest hl op ⟨ks, hholds⟩
      obtain ⟨hb, hbt, ht⟩ := hcalls c (by simp [hl])
      have hsub := threadRows_append_le hl
      rw [threadRows_append, Function.update_self] at hsub
      obtain ⟨op', ks', hop', hholds'⟩ := sink_holds hkeys haggs hholds hb hbt ht
        ((numKeys_mono hsub).trans_lt hbound)
      exact ⟨op', hop', _, by rw [threadRows_append]; exact hholds'⟩)
  exact ⟨op, ks, hop, hholds⟩

/-! ## Merging one group -/

end GroupBySinkSourceOperator

namespace GroupedAggregationFunction

variable {P : Platform} {key : Row → Row} {f : GroupedAggregationFunction} {ks ks' : List Row}
  {rs rs' : Multiset Row}

/-- `CombineState` adds a group of another thread to the group with the same key. -/
theorem combineState_holds (hexact : f.kind.Exact) (hks : ks.Nodup) {t i g : ℕ} {k : Row}
    (hi : ks'[i]? = some k) (hg : ks[g]? = some k) (h : f.Holds key 0 ks rs)
    (h' : f.Holds key t ks' rs') :
    ∃ states, f.combineState P t i g =
        some { f with threadStates := f.threadStates.set 0 states } ∧
      Tracks f.kind.Represents key f.argument ks (rs + group key rs' k) states := by
  obtain ⟨states, hstates, htracks⟩ := h
  obtain ⟨states', hstates', htracks'⟩ := h'
  have hlt' : i < states'.length := by
    rw [htracks'.length_eq]
    exact (List.getElem?_eq_some_iff.mp hi).1
  have hlt : g < states.length := by
    rw [htracks.length_eq]
    exact (List.getElem?_eq_some_iff.mp hg).1
  obtain ⟨hik, rfl⟩ := List.getElem?_eq_some_iff.mp hi
  have hrep := (List.forall₂_iff_get.mp htracks').2 i hik hlt'
  refine ⟨_, ?_, htracks.merge (AggregateKind.summarizes (P := P) hexact) hks hg hrep⟩
  simp [combineState, hstates', hstates, List.getElem?_eq_getElem hlt', modifyAt, hlt]

/-- `Resize` on thread 0 and `CombineState` take a group of another thread in as a new one. -/
theorem newGroup_holds (hexact : f.kind.Exact) {t i : ℕ} {k : Row} (hks : (ks ++ [k]).Nodup)
    (hk : group key rs k = 0) (hi : ks'[i]? = some k) (ht : 0 < t) (h : f.Holds key 0 ks rs)
    (h' : f.Holds key t ks' rs') :
    ∃ states, ((f.resize P (ks.length + 1) 0).bind fun f => f.combineState P t i ks.length) =
        some { f with threadStates := f.threadStates.set 0 states } ∧
      Tracks f.kind.Represents key f.argument (ks ++ [k]) (rs + group key rs' k) states := by
  have hnew : ∀ k' ∈ [k], group key rs k' = 0 := by simpa using hk
  obtain ⟨states, hstates, htracks⟩ := resize_holds (P := P) hexact hnew h
  rw [List.length_append, List.length_singleton] at hstates
  obtain ⟨states₀, hstates₀, -⟩ := h
  have hlast : (ks ++ [k])[ks.length]? = some k := by simp
  obtain ⟨states', hstates', htracks'⟩ := combineState_holds (P := P)
    (f := { f with threadStates := f.threadStates.set 0 states }) hexact hks hi hlast
    (.set_self (List.getElem?_eq_some_iff.mp hstates₀).1 htracks) (h'.set_ne ht.ne)
  exact ⟨states', by rw [hstates, Option.bind_some, hstates']; simp, htracks'⟩

end GroupedAggregationFunction

namespace GroupBySinkSourceOperator

variable {P : Platform} {types keyTypes : List ColumnType} {idxs : List ℕ}
  {aggs : List AggregationFunction} {n : ℕ} {kst : ℕ → List Row} {rst : ℕ → Multiset Row}

/-- The state of the merge: thread 0 holds the key tuples `ks` of the rows `rs`, the other threads
what they held before. -/
structure Merge.Holds (keyTypes : List ColumnType) (key : Row → Row)
    (aggs : List AggregationFunction) (n : ℕ) (kst : ℕ → List Row) (rst : ℕ → Multiset Row)
    (ks : List Row) (rs : Multiset Row) (m : Merge) : Prop where
  covers : Covers key ks rs
  table : m.glob.hashTable = tableFor keyTypes ks
  num : m.glob.numGroups = ks.length
  builders : m.glob.keyBuilders.map ColumnBuilder.content = tableOf keyTypes ks
  specs : m.aggFuncs.map (fun f => f.toAggregationFunction) = aggs
  global : ∀ f ∈ m.aggFuncs, f.Holds key 0 ks rs
  others : ∀ f ∈ m.aggFuncs, ∀ t, 0 < t → t < n → f.Holds key t (kst t) (rst t)

/-- A loop over the aggregation functions whose body replaces the states of thread 0. -/
theorem Merge.Holds.mapM {f : GroupedAggregationFunction → Option GroupedAggregationFunction}
    {key : Row → Row} {ks ks' : List Row} {rs rs' : Multiset Row} {m : Merge}
    (h : m.Holds keyTypes key aggs n kst rst ks rs)
    (hbody : ∀ g ∈ m.aggFuncs, ∃ states,
      f g = some { g with threadStates := g.threadStates.set 0 states } ∧
        Tracks g.kind.Represents key g.argument ks' rs' states) :
    ∃ fs, m.aggFuncs.mapM f = some fs ∧
      fs.map (fun f => f.toAggregationFunction) = aggs ∧
      (∀ f ∈ fs, f.Holds key 0 ks' rs') ∧
      ∀ f ∈ fs, ∀ t, 0 < t → t < n → f.Holds key t (kst t) (rst t) := by
  obtain ⟨fs, hfs, hspecs, hfuncs⟩ := exists_mapM_keep (l := m.aggFuncs) (f := f)
    (g := fun g => g.toAggregationFunction) (k := fun g => g.toAggregationFunction)
    (Q := fun g => g.Holds key 0 ks' rs' ∧ ∀ t, 0 < t → t < n → g.Holds key t (kst t) (rst t))
    (by
      intro g hg
      obtain ⟨states, hstates, htracks⟩ := hbody g hg
      obtain ⟨states₀, hstates₀, -⟩ := h.global g hg
      refine ⟨_, hstates, rfl, .set_self (List.getElem?_eq_some_iff.mp hstates₀).1 htracks, ?_⟩
      exact fun t ht htn => (h.others g hg t ht htn).set_ne ht.ne)
  exact ⟨fs, hfs, hspecs.trans h.specs, fun g hg => (hfuncs g hg).1, fun g hg => (hfuncs g hg).2⟩

section merge

variable {key : Row → Row} {t : ℕ}

/-- One entry of another thread's hash table: its group is taken into thread 0. -/
theorem mergeEntry_holds (haggs : ∀ f ∈ aggs, f.Declared types)
    (htyped : ∀ k ∈ kst t, List.Forall₂ Value.HasType k keyTypes)
    {ks : List Row} {rs : Multiset Row} {m : Merge}
    (hks : ∀ k ∈ ks, List.Forall₂ Value.HasType k keyTypes)
    (h : m.Holds keyTypes key aggs n kst rst ks rs) (ht : 0 < t) (htn : t < n)
    (hcovers : Covers key (kst t) (rst t)) {builders : List ColumnBuilder}
    (hbuilders : builders.map ColumnBuilder.content = tableOf keyTypes (kst t)) {i : ℕ} {k : Row}
    (hi : (kst t)[i]? = some k)
    (hbound : numKeys key (rs + group key (rst t) k) < 2 ^ 32) :
    ∃ m' ks', mergeEntry P t (builders.map ColumnBuilder.finish) m (encodeKey keyTypes k, i) =
        some m' ∧
      Merge.Holds keyTypes key aggs n kst rst ks' (rs + group key (rst t) k) m' := by
  have hdecl : ∀ f ∈ m.aggFuncs, f.toAggregationFunction.Declared types := fun f hf =>
    haggs _ (h.specs ▸ List.mem_map_of_mem hf)
  have hkmem : k ∈ kst t := List.mem_of_getElem? hi
  have hkeys : ∀ k', HasKey key (rs + group key (rst t) k) k' ↔ HasKey key rs k' ∨ k' = k :=
    fun k' => hasKey_add_group ((hcovers.mem_iff k).mp hkmem)
  by_cases hmem : k ∈ ks
  · obtain ⟨g, hg⟩ := List.getElem?_of_mem hmem
    obtain ⟨fs, hfs, hspecs, hglobal, hothers⟩ := h.mapM
      (f := fun f => f.combineState P t i g) fun f hf =>
        GroupedAggregationFunction.combineState_holds (hdecl f hf).exact h.covers.nodup hi hg
          (h.global f hf) (h.others f hf t ht htn)
    refine ⟨{ m with aggFuncs := fs }, ks, ?_, h.covers.insert_old hmem hkeys, h.table, h.num,
      h.builders, hspecs, hglobal, hothers⟩
    simp [mergeEntry, h.table, lookup_tableFor h.covers.nodup hks hg, hfs]
  · have hcovers' := h.covers.insert_new hmem hkeys
    have hlt : ks.length < 2 ^ 32 := by
      have hlen := hcovers'.length_eq
      rw [List.length_append, List.length_singleton] at hlen
      omega
    have hzero := h.covers.group_eq_zero hmem
    obtain ⟨fs, hfs, hspecs, hglobal, hothers⟩ := h.mapM
      (f := fun f => (f.resize P (ks.length + 1) 0).bind fun f => f.combineState P t i ks.length)
      fun f hf => GroupedAggregationFunction.newGroup_holds (hdecl f hf).exact hcovers'.nodup hzero
        hi ht (h.global f hf) (h.others f hf t ht htn)
    have hcols := HoldRows.of_builders hbuilders
    have hki : (kst t).getD i default = k := by simp [hi]
    have hrange : ∀ i' ∈ [i], i' < (kst t).length := by
      simpa using (List.getElem?_eq_some_iff.mp hi).1
    obtain ⟨builders', hbuilders', hcontent⟩ :=
      copyColumns_tableOf h.builders hcols.map_type (hcols.visit_some hrange)
    rw [List.map_singleton, hki] at hcontent
    have hktyped := htyped k hkmem
    refine ⟨⟨⟨tableFor keyTypes (ks ++ [k]), builders', ks.length + 1⟩, fs⟩, ks ++ [k], ?_,
      hcovers', rfl, by simp, hcontent, hspecs, hglobal, hothers⟩
    simp only [mergeEntry, h.table, lookup_tableFor_eq_none hks hktyped hmem, h.num,
      toUInt32_of_lt hlt, Option.bind_eq_bind, Option.pure_def, tableFor_append]
    rw [hbuilders', Option.bind_some, hfs, Option.bind_some]

/-- The key tuple an entry of the hash table of `ks` stands for. -/
def entryKey (ks : List Row) (e : Bytes × ℕ) : Row := ks.getD e.2 default

theorem map_entryKey_tableFor (ks : List Row) : (tableFor keyTypes ks).map (entryKey ks) = ks := by
  apply List.ext_getElem (by simp [tableFor])
  intro i hi hi'
  simp [tableFor, entryKey, List.getElem?_eq_getElem hi']

/-- Entries of the hash table of `ks` are the numbered composite keys. -/
theorem getElem?_of_mem_tableFor {ks : List Row} {e : Bytes × ℕ} (he : e ∈ tableFor keyTypes ks) :
    ks[e.2]? = some (entryKey ks e) ∧ e.1 = encodeKey keyTypes (entryKey ks e) := by
  obtain ⟨i, hi, rfl⟩ := List.getElem_of_mem he
  have hi' : i < ks.length := by simpa [tableFor] using hi
  simp [tableFor, entryKey, List.getElem?_eq_getElem hi']

/-- The rows of the groups of some entries of thread `t`. -/
def mergedRows (key : Row → Row) (rst : Multiset Row) (ks : List Row) (done : HashTable) :
    Multiset Row :=
  ((done.map (entryKey ks)).map (group key rst)).sum

/-- The entries of a thread's hash table stand for its key tuples, whatever their order. -/
theorem map_entryKey_perm (ord : IterationOrder) {s : GroupByThreadState} {ks : List Row}
    {rs : Multiset Row} (hs : s.Holds keyTypes key ks rs) :
    ((ord.order s.hashTable).map (entryKey ks)).Perm ks := by
  apply ((ord.perm _).map _).trans
  rw [hs.table, map_entryKey_tableFor]

/-- The merged rows are among those of the thread. -/
theorem mergedRows_le (ord : IterationOrder) {s : GroupByThreadState} {ks : List Row}
    {rs : Multiset Row} (hs : s.Holds keyTypes key ks rs) {done rest : HashTable}
    (hl : ord.order s.hashTable = done ++ rest) : mergedRows key rs ks done ≤ rs := by
  have hdone : done.Sublist (ord.order s.hashTable) := hl ▸ List.sublist_append_left done rest
  conv_rhs => rw [← hs.covers.sum_group,
    ← ((map_entryKey_perm ord hs).map (group key rs)).sum_eq]
  exact List.Sublist.sum_le_sum ((hdone.map _).map _) fun _ _ => zero_le

/-- One round of the loop over the hash table of another thread. -/
theorem mergeEntries_step (ord : IterationOrder) (haggs : ∀ f ∈ aggs, f.Declared types)
    {total : Multiset Row} (htyped : ∀ r ∈ total, List.Forall₂ Value.HasType (key r) keyTypes)
    (hbound : numKeys key total < 2 ^ 32) {rs : Multiset Row} (ht : 0 < t) (htn : t < n)
    (hle : rs + rst t ≤ total) {s : GroupByThreadState}
    (hs : s.Holds keyTypes key (kst t) (rst t))
    (hbuilders : s.keyBuilders.map ColumnBuilder.content = tableOf keyTypes (kst t))
    {done rest : HashTable} {e : Bytes × ℕ} (hl : ord.order s.hashTable = done ++ e :: rest)
    {m : Merge} {ks : List Row}
    (h : m.Holds keyTypes key aggs n kst rst ks (rs + mergedRows key (rst t) (kst t) done)) :
    ∃ m', mergeEntry P t (s.keyBuilders.map ColumnBuilder.finish) m e = some m' ∧
      ∃ ks', Merge.Holds keyTypes key aggs n kst rst ks'
        (rs + mergedRows key (rst t) (kst t) (done ++ [e])) m' := by
  have hsum : mergedRows key (rst t) (kst t) (done ++ [e]) ≤ rst t :=
    mergedRows_le ord hs (hl.trans (List.append_cons done e rest))
  have he : e ∈ tableFor keyTypes (kst t) := by
    rw [← hs.table, ← (ord.perm _).mem_iff, hl]
    simp
  obtain ⟨hi, hkey⟩ := getElem?_of_mem_tableFor he
  have hnext : rs + mergedRows key (rst t) (kst t) (done ++ [e]) =
      rs + mergedRows key (rst t) (kst t) done + group key (rst t) (entryKey (kst t) e) := by
    simp [mergedRows, add_assoc]
  have hnext_le := le_trans (add_le_add_right hsum rs) hle
  rw [hnext] at hnext_le ⊢
  have hrst_le : rst t ≤ total := le_trans (Multiset.le_add_left _ _) hle
  obtain ⟨m', ks', hm', h'⟩ := mergeEntry_holds (P := P) haggs
    (hs.covers.forall_of_le hrst_le htyped)
    (h.covers.forall_of_le (le_trans (Multiset.le_add_right _ _) hnext_le) htyped) h ht htn
    hs.covers hbuilders hi ((numKeys_mono hnext_le).trans_lt hbound)
  rw [← hkey] at hm'
  exact ⟨m', hm', ks', h'⟩

/-- The builders of a thread that has groups hold its key tuples. -/
theorem content_of_numGroups_ne {s : GroupByThreadState} {ks : List Row} {rs : Multiset Row}
    (hs : s.Holds keyTypes key ks rs) (hnum : s.numGroups ≠ 0) :
    s.keyBuilders.map ColumnBuilder.content = tableOf keyTypes ks := by
  rcases hs.builders with hcontent | ⟨-, hnil⟩
  · exact hcontent
  · exact absurd (hs.num.trans (by simp [hnil])) hnum

/-- **The groups of another thread** are taken into thread 0, in any order of its hash table. -/
theorem mergeThread_holds (ord : IterationOrder) (haggs : ∀ f ∈ aggs, f.Declared types)
    {total : Multiset Row} (htyped : ∀ r ∈ total, List.Forall₂ Value.HasType (key r) keyTypes)
    (hbound : numKeys key total < 2 ^ 32) {ks : List Row} {rs : Multiset Row} {m : Merge}
    (h : m.Holds keyTypes key aggs n kst rst ks rs) (ht : 0 < t) (htn : t < n)
    (hle : rs + rst t ≤ total) {s : GroupByThreadState}
    (hs : s.Holds keyTypes key (kst t) (rst t)) :
    ∃ m', mergeThread P ord m (s, t) = some m' ∧
      ∃ ks', Merge.Holds keyTypes key aggs n kst rst ks' (rs + rst t) m' := by
  unfold mergeThread
  split_ifs with hzero
  · have hnil : kst t = [] := List.length_eq_zero_iff.mp (hs.num ▸ hzero)
    have hrst : rst t = 0 := by
      rw [← hs.covers.sum_group, hnil]
      rfl
    exact ⟨m, rfl, ks, by simpa [hrst] using h⟩
  have hbuilders := content_of_numGroups_ne hs hzero
  obtain ⟨m', hm', ks', hholds⟩ := exists_foldlM (l := ord.order s.hashTable) (s := m)
    (f := mergeEntry P t (s.keyBuilders.map ColumnBuilder.finish))
    (I := fun done m => ∃ ks', Merge.Holds keyTypes key aggs n kst rst ks'
      (rs + mergedRows key (rst t) (kst t) done) m)
    ⟨ks, by simpa [mergedRows] using h⟩
    fun done e rest hl m₁ ⟨ks₁, h₁⟩ =>
      mergeEntries_step ord haggs htyped hbound ht htn hle hs hbuilders hl h₁
  refine ⟨m', hm', ks', ?_⟩
  rwa [mergedRows, ((map_entryKey_perm ord hs).map (group key (rst t))).sum_eq,
    hs.covers.sum_group] at hholds

end merge

/-! ## The result -/

/-- The merge starts from thread 0. -/
theorem Holds.merge_start {op : GroupBySinkSourceOperator}
    (h : Holds types idxs keyTypes aggs n kst rst op) (hn : 0 < n) {glob : GroupByThreadState}
    (hglob : op.threadStates[0]? = some glob) :
    Merge.Holds keyTypes (keyOf idxs) aggs n kst rst (kst 0) (rst 0)
      ⟨{ glob with keyBuilders := op.ensureBuilders glob.keyBuilders }, op.aggFuncs⟩ := by
  obtain ⟨-, rfl, hspecs, -, -, hthread, hfuncs, -⟩ := h
  have hold := hthread 0 _ hglob
  exact ⟨hold.covers, hold.table, hold.num, ensureBuilders_content hold, hspecs,
    fun f hf => hfuncs f hf 0 hn, fun f hf t _ htn => hfuncs f hf t htn⟩

/-- The key tuples of the rows of all threads are typed. -/
theorem Holds.keys_typed {op : GroupBySinkSourceOperator} (hkeys : KeyColumns types idxs keyTypes)
    (h : Holds types idxs keyTypes aggs n kst rst op) :
    ∀ r ∈ ∑ t ∈ Finset.range n, rst t, List.Forall₂ Value.HasType (keyOf idxs r) keyTypes := by
  intro r hr
  obtain ⟨t, -, hrt⟩ := Multiset.mem_sum.mp hr
  exact hkeys.typed (h.typed t r hrt)

/-- The rows of the threads merged so far and of the next are among those of all threads. -/
theorem sum_range_add_le {t : ℕ} (ht : t < n) :
    ∑ t ∈ Finset.range t, rst t + rst t ≤ ∑ t ∈ Finset.range n, rst t := by
  rw [← Finset.sum_range_succ]
  exact Finset.sum_le_sum_of_subset (Finset.range_subset_range.mpr ht)

/-- **Merging all threads**: thread 0 ends up with the rows of all threads. -/
theorem mergeThreads_holds (ord : IterationOrder) (haggs : ∀ f ∈ aggs, f.Declared types)
    (hkeys : KeyColumns types idxs keyTypes) (hn : 0 < n)
    (hbound : numKeys (keyOf idxs) (∑ t ∈ Finset.range n, rst t) < 2 ^ 32)
    {op : GroupBySinkSourceOperator} (h : Holds types idxs keyTypes aggs n kst rst op) :
    ∃ glob m ks, op.threadStates[0]? = some glob ∧
      (op.threadStates.zipIdx.drop 1).foldlM (mergeThread P ord)
        ⟨{ glob with keyBuilders := op.ensureBuilders glob.keyBuilders }, op.aggFuncs⟩ = some m ∧
      Merge.Holds keyTypes (keyOf idxs) aggs n kst rst ks (∑ t ∈ Finset.range n, rst t) m := by
  have hthreads := h.threads
  have hpos : 0 < op.threadStates.length := hthreads ▸ hn
  have h0 : op.threadStates[0]? = some op.threadStates[0] := List.getElem?_eq_getElem hpos
  obtain ⟨m, hm, ks, hholds⟩ := exists_foldlM_zipIdx (l := op.threadStates) (n := 1)
    (s := ⟨{ op.threadStates[0] with
      keyBuilders := op.ensureBuilders op.threadStates[0].keyBuilders }, op.aggFuncs⟩)
    (f := mergeThread P ord)
    (I := fun t m => ∃ ks, Merge.Holds keyTypes (keyOf idxs) aggs n kst rst ks
      (∑ t ∈ Finset.range t, rst t) m)
    hpos
    ⟨kst 0, by
      rw [Finset.sum_range_one]
      exact h.merge_start hn h0⟩
    (by
      rintro t ht hpos m₁ ⟨ks₁, h₁⟩
      have htn : t < n := hthreads ▸ ht
      obtain ⟨m₂, hm₂, ks₂, h₂⟩ := mergeThread_holds (P := P) ord haggs (h.keys_typed hkeys) hbound
        h₁ hpos htn (sum_range_add_le htn) (h.thread _ _ (List.getElem?_eq_getElem ht))
      refine ⟨m₂, hm₂, ks₂, ?_⟩
      rwa [Finset.sum_range_succ])
  rw [hthreads] at hholds
  exact ⟨_, m, ks, h0, hm, hholds⟩

/-- `Finalize` succeeds: the functions after the merge are those of thread 0, and each writes its
column. -/
theorem finalize_eq_some (ord : IterationOrder) {op : GroupBySinkSourceOperator}
    {glob : GroupByThreadState} {m : Merge} {cols : List Column}
    (hglob : op.threadStates[0]? = some glob)
    (hm : (op.threadStates.zipIdx.drop 1).foldlM (mergeThread P ord)
      ⟨{ glob with keyBuilders := op.ensureBuilders glob.keyBuilders }, op.aggFuncs⟩ = some m)
    (hcols : m.aggFuncs.mapM (fun f => f.finalize P) = some cols) :
    op.finalize P ord = some { op with
      aggFuncs := m.aggFuncs
      resultBatch := some ⟨m.glob.numGroups, none,
        m.glob.keyBuilders.map ColumnBuilder.finish ++ cols⟩ } := by
  simp only [finalize, hglob, Option.bind_eq_bind, Option.bind_some, hm, hcols, Option.pure_def]

end GroupBySinkSourceOperator

/-- `Finalize` of a grouped function with the declared output class. -/
theorem GroupedAggregationFunction.finalize_eq_some {P : Platform}
    {f : GroupedAggregationFunction} (hout : f.columnType = f.kind.output)
    {states : List f.kind.State} (h : f.threadStates[0]? = some states) :
    f.finalize P = some
      ((makeColumnBuilder f.columnType).addValues (states.map (f.kind.result P))).finish := by
  simp [finalize, h, AggregationFunction.finalize, hout]

/-- The column has the value of the aggregate for each of the groups, in order. -/
structure AggregationFunction.ResultColumn (P : Platform) (key : Row → Row) (ks : List Row)
    (rs : Multiset Row) (f : AggregationFunction) (c : Column) : Prop where
  length_eq : c.data.length = ks.length
  value : ∀ i (hi : i < ks.length),
    f.kind.Spec P ((group key rs ks[i]).map f.argument) (c.data.getD i default)

/-- `Finalize` of a grouped function writes the result of each group, in order. -/
theorem GroupedAggregationFunction.finalize_holds {P : Platform} {key : Row → Row}
    {f : GroupedAggregationFunction} {types : List ColumnType} {ks : List Row} {rs : Multiset Row}
    (hf : f.Declared types) (havg : f.kind.isAvg = false) (hks : Covers key ks rs)
    (hfits : ∀ k, f.kind.Fits ((group key rs k).map f.argument)) (h : f.Holds key 0 ks rs) :
    ∃ c, f.finalize P = some c ∧ f.ResultColumn P key ks rs c := by
  obtain ⟨states, hstates, htracks⟩ := h
  obtain ⟨hlen, hget⟩ := List.forall₂_iff_get.mp htracks
  have hresult : ∀ v ∈ states.map (f.kind.result P), v.HasType f.kind.output := by
    intro v hv
    obtain ⟨s, hs, rfl⟩ := List.mem_map.mp hv
    obtain ⟨i, hi, rfl⟩ := List.getElem_of_mem hs
    exact AggregateKind.result_hasType hf.exact havg (hget i (hlen ▸ hi) hi) (hfits _)
  have hdata : ((makeColumnBuilder f.kind.output).addValues
      (states.map (f.kind.result P))).finish.data = states.map (f.kind.result P) := by
    simp [map_conv_eq_self hresult]
  refine ⟨_, finalize_eq_some hf.output hstates, ?_⟩
  rw [hf.output]
  refine ⟨by rw [hdata, List.length_map, hlen], ?_⟩
  intro i hi
  have hi' : i < states.length := hlen ▸ hi
  rw [hdata, List.getD_eq_getElem _ _ (by simpa using hi'), List.getElem_map]
  refine AggregateKind.result_spec (hget i hi hi') ?_ (hfits _)
  obtain ⟨r, hr, hkr⟩ := (hks.mem_iff ks[i]).mp (List.getElem_mem hi)
  have hmem : r ∈ group key rs ks[i] := Multiset.mem_filter.mpr ⟨hr, hkr⟩
  intro hzero
  rw [Multiset.map_eq_zero] at hzero
  rw [hzero] at hmem
  exact Multiset.notMem_zero r hmem

namespace GroupBySinkSourceOperator

/-- A row of the result for the key tuple `k`: the key tuple, then the aggregates over exactly the
rows with that key tuple. -/
def IsGroupRow (P : Platform) (idxs : List ℕ) (aggs : List AggregationFunction)
    (rs : Multiset Row) (k r : Row) : Prop :=
  ∃ vs, r = k ++ vs ∧
    List.Forall₂ (fun f v => f.kind.Spec P ((group (keyOf idxs) rs k).map f.argument) v) aggs vs

/-- **GROUP BY is correct.** For every sequence of `Sink` calls on any threads and every iteration
order of the hash tables, the batch that `Finalize` builds has exactly one row for each key tuple
of the selected rows: the key tuple followed by the aggregates over exactly the rows with it. -/
theorem groupBy_correct (P : Platform) (ord : IterationOrder) {types keyTypes : List ColumnType}
    {idxs : List ℕ} {aggs : List AggregationFunction} {n : ℕ} (hn : 0 < n)
    (hkeys : KeyColumns types idxs keyTypes) (haggs : ∀ f ∈ aggs, f.Declared types)
    (havg : ∀ f ∈ aggs, f.kind.isAvg = false) {calls : List (RecordBatch × ℕ)}
    (hcalls : ValidCalls types n calls)
    (hbound : numKeys (keyOf idxs) (sunkRows calls) < 2 ^ 32)
    (hfits : ∀ f ∈ aggs, ∀ k,
      f.kind.Fits ((group (keyOf idxs) (sunkRows calls) k).map f.argument)) :
    ∃ op op' b ks, (create idxs keyTypes aggs n).sinkAll P calls = some op ∧
      op.finalize P ord = some op' ∧ op'.getData.1 = some b ∧ b.numRows = ks.length ∧
      Covers (keyOf idxs) ks (sunkRows calls) ∧
      List.Forall₂ (IsGroupRow P idxs aggs (sunkRows calls)) ks b.rows := by
  obtain ⟨op, kst, hop, hholds⟩ := sinkAll_holds (P := P) hkeys haggs hcalls hbound
  have hsum := sum_threadRows fun c hc => (hcalls c hc).2.2
  obtain ⟨glob, m, ks, hglob, hm, hmerge⟩ := mergeThreads_holds (P := P) ord haggs hkeys hn
    (by rwa [hsum]) hholds
  rw [hsum] at hmerge
  obtain ⟨cols, hcols, hall⟩ := exists_mapM (l := m.aggFuncs) (f := fun f => f.finalize P)
    (Q := fun f c => f.ResultColumn P (keyOf idxs) ks (sunkRows calls) c)
    (by
      intro f hf
      have hmem : f.toAggregationFunction ∈ aggs := hmerge.specs ▸ List.mem_map_of_mem hf
      exact GroupedAggregationFunction.finalize_holds (haggs _ hmem) (havg _ hmem) hmerge.covers
        (hfits _ hmem) (hmerge.global f hf))
  refine ⟨op, _, _, ks, hop, finalize_eq_some ord hglob hm hcols,
    by simp [getData, hholds.silent]; rfl, hmerge.num,
    hmerge.covers, ?_⟩
  rw [List.forall₂_iff_get]
  refine ⟨by simp [RecordBatch.rows, RecordBatch.selected, hmerge.num], ?_⟩
  intro i hi hi'
  refine ⟨cols.map fun c => c.data.getD i default, ?_, ?_⟩
  · have hkeycols := (HoldRows.of_builders hmerge.builders).row_eq hi (by
      obtain ⟨r, -, hr⟩ := (hmerge.covers.mem_iff ks[i]).mp (List.getElem_mem hi)
      rw [← hr, length_keyOf, hkeys.length_eq])
    simp only [RecordBatch.rows, RecordBatch.selected, List.get_eq_getElem, List.getElem_map,
      List.getElem_range, RecordBatch.rowAt, List.map_append, hkeycols]
  · rw [← hmerge.specs, List.forall₂_map_left_iff, List.forall₂_map_right_iff]
    exact hall.imp fun f c hc => hc.value i hi

/-- The sums of all groups fit if those of the groups that occur do. -/
theorem fits_of_keys {key : Row → Row} {rs : Multiset Row} {f : AggregationFunction}
    (h : ∀ r ∈ rs, f.kind.Fits ((group key rs (key r)).map f.argument)) (k : Row) :
    f.kind.Fits ((group key rs k).map f.argument) := by
  by_cases hk : group key rs k = 0
  · rw [hk]
    exact f.kind.fits_zero
  · obtain ⟨r, hr⟩ := Multiset.exists_mem_of_ne_zero hk
    obtain ⟨hmem, rfl⟩ := Multiset.mem_filter.mp hr
    exact h r hmem

/-- Two threads, one with a filtered batch: count and sum of an `INT16` column by a `STRING`
column. -/
theorem groupBy_two_threads :
    let calls : List (RecordBatch × ℕ) :=
      [(⟨2, none, [Column.ofValues .int16 [.int 7, .int (-8)],
          Column.ofValues .string [.str (ascii "a"), .str (ascii "b")]]⟩, 1),
        (⟨1, some [1], [Column.ofValues .int16 [.int 0, .int 9],
          Column.ofValues .string [.str (ascii "c"), .str (ascii "a")]]⟩, 0)]
    let aggs : List AggregationFunction :=
      [⟨.count .int64, 0, .int64⟩, ⟨.typed .int16 .int32 .sum, 0, .int32⟩]
    ∃ op op' b ks, (create [1] [.string] aggs 2).sinkAll Platform.integral calls = some op ∧
      op.finalize Platform.integral ⟨List.reverse, List.reverse_perm⟩ = some op' ∧
      op'.getData.1 = some b ∧ b.numRows = ks.length ∧
      Covers (keyOf [1]) ks (sunkRows calls) ∧
      List.Forall₂ (IsGroupRow Platform.integral [1] aggs (sunkRows calls)) ks b.rows := by
  intro calls aggs
  refine groupBy_correct Platform.integral ⟨List.reverse, List.reverse_perm⟩ (by decide)
    (.cons rfl .nil : KeyColumns [.int16, .string] [1] [.string]) ?_ (by decide) ?_ (by decide) ?_
  · intro f hf
    obtain rfl | rfl : f = aggs[0] ∨ f = aggs[1] := by simpa [aggs] using hf
    · exact ⟨⟨by decide, rfl⟩, rfl⟩
    · exact ⟨⟨by decide, rfl⟩, by decide, by decide⟩
  · unfold ValidCalls
    decide
  · intro f hf
    apply fits_of_keys
    revert f
    decide

end GroupBySinkSourceOperator

end ColumnarEngine
